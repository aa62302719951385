import Epic.Core.Pmmr.TakeBack
import Epic.Core.Pmmr.Tree

/-!
This module contains what can be read after a compaction: everything that is not below a pruned root, and
above all the unspent leaves and those that a later rewind may restore.
-/

namespace Epic

open Pmmr DyadicBlock

theorem AppendOnlyFile.readAt_rewind {T : Type} {f : AppendOnlyFile T} {l : List T} {i pos : Nat} {x : T}
    (h : f.Tidy) (hbuffer : f.buffer = []) (hinitial : l <+: f.contents) (hx : l[i]? = some x) (hi : i < pos)
    : (f.rewind pos).readAt i = some x := by
  obtain ⟨hlt, rfl⟩ := List.getElem?_eq_some_iff.mp hx
  have hread := List.prefix_iff_getElem?.mp hinitial i hlt
  have hstart : i < f.bufferStartPos := by
    rw [h.start_eq hbuffer]
    exact hlt.trans_le hinitial.length_le
  have hfile : f.file[i]? = some l[i] := by
    rw [← hread, AppendOnlyFile.contents, hbuffer, List.append_nil, List.getElem?_take_of_lt hstart]
  unfold AppendOnlyFile.readAt AppendOnlyFile.rewind AppendOnlyFile.sizeUnsync
  simp [hbuffer, hi, hfile]

namespace PruneList

variable {p : PruneList} {s : Finset Nat} {j n : Nat}

theorem Prunes.isPruned_leafPos (h : Prunes p s)
    : p.isPruned (leafPos j) = false ↔ j ∉ s := by
  rw [← Bool.not_eq_true, ← nodeAt_zero, h.isPruned_nodeAt, full_zero]

theorem Prunes.isPruned_zero (h : Prunes p s)
    : p.isPruned 0 = false := by
  rw [isPruned, decide_eq_false_iff_not, h.mem_cache]
  rintro ⟨i, k, heq, -⟩
  have := nodeAt_pos i k
  omega

theorem compacts_of_not_pruned (h : p.isPruned pos = false)
    : p.compacts pos = false := by
  rw [compacts, h, Bool.false_and]

theorem Prunes.not_compacts_peak (h : Prunes p s) (hs : s ⊆ Finset.range n)
    (hpos : pos ∈ peaks (mmrSize n))
    : p.compacts pos = false := by
  obtain ⟨i, k, hle, rfl⟩ := exists_of_mem_peaks hpos
  rw [nodeAt_mem_peaks_iff hle] at hpos
  rw [← Bool.not_eq_true, h.compacts_nodeAt]
  intro hfull
  have := nodeAt_le_mmrSize_iff.mpr (hfull.le hs)
  omega

end PruneList

namespace PMMRBackend

variable {E : Type} {b : PMMRBackend E} {s : Finset Nat} {hash : Nat → Hash} {elmt : Nat → E}
  {cutoffPos j n pos : Nat} {rewindRmPos : Bitmap}

theorem Stores.getLeafShift (h : b.Stores s n hash elmt) (hpos : mmrSize n ≤ pos)
    : b.pruneList.getLeafShift pos = b.pruneList.getLeafShift (mmrSize n) := by
  have hroots : ∀ root ∈ b.pruneList.bitmap, root ≤ mmrSize n := fun root => h.prunes.bitmap_le h.pruned
  rw [h.cached.leafShift, h.cached.leafShift, Finset.filter_true_of_mem hroots,
    Finset.filter_true_of_mem fun root hroot => (hroots root hroot).trans hpos]

theorem getDataFromFile_zero (b : PMMRBackend E)
    : b.getDataFromFile 0 = none := by
  unfold getDataFromFile AppendOnlyFile.read
  simp [show nLeaves 0 = 0 from rfl]

theorem Stores.getDataFromFile_eq_none (h : b.Stores s n hash elmt) (hj : n ≤ j)
    : b.getDataFromFile (leafPos j) = none := by
  have hgt : mmrSize n < leafPos j := by
    have := mmrSize_le_mmrSize hj
    unfold leafPos
    omega
  have hlength := h.prunes.length_keptLeaves h.cached h.pruned
  unfold getDataFromFile AppendOnlyFile.read
  rw [isLeaf_leafPos, nLeaves_leafPos, h.getLeafShift hgt.le]
  split
  . rfl
  . split
    . rfl
    . split
      . rfl
      . rw [h.dataTidy.readAt_eq, h.data, List.getElem?_eq_none]
        rw [List.length_map]
        omega

theorem notMem_prunedAfter (hj : j ∉ s)
    (hneeded : leafPos j ∈ b.leafSet.bitmap ∨ leafPos j ∈ rewindRmPos)
    : j ∉ b.prunedAfter s n cutoffPos rewindRmPos := by
  intro hmem
  rcases Finset.mem_union.mp hmem with hold | hnew
  . exact hj hold
  . obtain ⟨-, hle, -, -, hnot⟩ := mem_removedPreCutoff (mem_numbers.mp (List.mem_toFinset.mp hnew)).2
    exact hnot (LeafSet.mem_rewound.mpr (hneeded.imp_left fun hunspent => ⟨hunspent, hle⟩))

theorem Stores.getFromFile_checkCompact (h : b.Stores s n hash elmt) (hsettled : b.Settled)
    (hsize : n < 2 ^ 64) (hcutoff : cutoffPos ≤ mmrSize n) (rewindRmPos : Bitmap)
    (hpos : (b.checkCompact cutoffPos rewindRmPos).isCompacted pos = false)
    : (b.checkCompact cutoffPos rewindRmPos).getFromFile pos = b.getFromFile pos := by
  have hcompacted := h.checkCompact hsettled hsize hcutoff rewindRmPos
  have hremoves := h.removes hsize hcutoff rewindRmPos
  have hold : b.pruneList.compacts pos = false := by
    rw [← Bool.not_eq_true]
    intro hold
    rw [isCompacted_eq, hremoves.compacts_of_compacts hold] at hpos
    contradiction
  by_cases hkept : pos ∈ b.pruneList.kept n
  . have hkept' := PruneList.mem_kept.mpr ⟨(PruneList.mem_kept.mp hkept).1, hpos⟩
    rw [h.getFromFile_of_mem hkept, hcompacted.getFromFile_of_mem hkept']
  . have hkept' : pos ∉ (b.checkCompact cutoffPos rewindRmPos).pruneList.kept n := fun hmem =>
      hkept (PruneList.mem_kept.mpr ⟨(PruneList.mem_kept.mp hmem).1, hold⟩)
    rw [h.getFromFile_eq_none hkept, hcompacted.getFromFile_eq_none hkept']

theorem Stores.getDataFromFile_checkCompact (h : b.Stores s n hash elmt) (hsettled : b.Settled)
    (hsize : n < 2 ^ 64) (hcutoff : cutoffPos ≤ mmrSize n) (rewindRmPos : Bitmap)
    (hpos : (b.checkCompact cutoffPos rewindRmPos).isCompacted pos = false)
    : (b.checkCompact cutoffPos rewindRmPos).getDataFromFile pos = b.getDataFromFile pos := by
  have hcompacted := h.checkCompact hsettled hsize hcutoff rewindRmPos
  have hremoves := h.removes hsize hcutoff rewindRmPos
  rcases Nat.eq_zero_or_pos pos with rfl | hpositive
  . rw [getDataFromFile_zero, getDataFromFile_zero]
  cases hleaf : isLeaf pos with
  | false => simp [getDataFromFile, hleaf]
  | true =>
    obtain ⟨j, rfl⟩ := exists_eq_leafPos hpositive hleaf
    rcases Nat.lt_or_ge j n with hlt | hge
    . have hkept' := PruneList.mem_keptLeaves.mpr ⟨hlt, hpos⟩
      have hkept := List.mem_of_mem_filter (hremoves.keptLeaves_eq ▸ hkept')
      rw [h.getDataFromFile_of_mem hkept, hcompacted.getDataFromFile_of_mem hkept']
    . rw [h.getDataFromFile_eq_none hge, hcompacted.getDataFromFile_eq_none hge]

end PMMRBackend

namespace PMMR

variable {T E : Type} [PMMRable T E]

def compacted (p : PMMR E) (cutoffPos : Nat) (rewindRmPos : Bitmap) : PMMR E :=
  { p with backend := p.backend.checkCompact cutoffPos rewindRmPos }

def Live (p : PMMR E) : Prop :=
  ∀ pos ∈ p.backend.leafSet.bitmap, isLeaf pos = true → p.backend.pruneList.isPruned pos = false

structure Restorable (p : PMMR E) (pos : Nat) : Prop where
  leaf : isLeaf pos = true
  positive : 0 < pos
  le : pos ≤ p.lastPos
  unpruned : p.backend.pruneList.isPruned pos = false

section

variable {env : Env} {base p p' : PMMR E} {s : Finset Nat} {n pos : Nat} {hash : Nat → Hash}
  {elmt : Nat → E} {cutoffPos : Nat} {rewindRmPos : Bitmap}

theorem not_pruned_compacted (hstores : p.Stores s n hash elmt) (hsize : n < 2 ^ 64)
    (hcutoff : cutoffPos ≤ mmrSize n) (hleaf : isLeaf pos = true)
    (hneeded : pos ∈ p.backend.leafSet.bitmap ∨ pos ∈ rewindRmPos)
    (hpos : p.backend.pruneList.isPruned pos = false)
    : (p.compacted cutoffPos rewindRmPos).backend.pruneList.isPruned pos = false := by
  have hremoves := hstores.backend.removes hsize hcutoff rewindRmPos
  obtain ⟨hprunes, -⟩ := hremoves.prunes_checkCompact
  unfold compacted
  dsimp only
  rcases Nat.eq_zero_or_pos pos with rfl | hpositive
  . exact hprunes.isPruned_zero
  . obtain ⟨j, rfl⟩ := exists_eq_leafPos hpositive hleaf
    rw [hstores.backend.prunes.isPruned_leafPos] at hpos
    exact hprunes.isPruned_leafPos.mpr (PMMRBackend.notMem_prunedAfter hpos hneeded)

theorem root_compacted (hstores : p.Stores s n hash elmt) (hsettled : p.Settled) (hsize : n < 2 ^ 64)
    (hcutoff : cutoffPos ≤ mmrSize n) (rewindRmPos : Bitmap)
    : ((p.compacted cutoffPos rewindRmPos).root env : Outcome String Hash) = p.root env := by
  have hcompacted := hstores.backend.checkCompact hsettled hsize hcutoff rewindRmPos
  have hpeaks : (p.compacted cutoffPos rewindRmPos).peaks = p.peaks := by
    unfold peaks
    apply List.filterMap_congr
    intro pos hpos
    have hpeak : pos ∈ Pmmr.peaks (mmrSize n) := by
      rw [← hstores.lastPos]
      exact hpos
    exact hstores.backend.getFromFile_checkCompact hsettled hsize hcutoff rewindRmPos
      (hcompacted.prunes.not_compacts_peak hcompacted.pruned hpeak)
  unfold root
  rw [hpeaks]
  rfl

theorem Later.reads_rewind {m position j : Nat} {removed restored : Bitmap} {start : PMMR E}
    (h : Later T env start removed p) (hstart : start.Stores s n hash elmt)
    (hprunable : start.backend.prunable = true)
    (hhash : p.backend.hashFile.buffer = []) (hdata : p.backend.dataFile.buffer = [])
    (hposition : lastParent (position + 1) position = mmrSize m) (hj : j < n)
    (hunpruned : start.backend.pruneList.isPruned (leafPos j) = false)
    (hrestored : leafPos j ∈ restored) (hm : j < m)
    : (p.rewind position restored).backend.getHash (leafPos j) = some (hash (leafPos j))
        ∧
      (p.rewind position restored).backend.getData (leafPos j) = some (elmt j) := by
  have hb := hstart.backend
  have hahead := h.ahead hstart.aligned hprunable
  obtain ⟨k, haligned⟩ := hahead.aligned
  have hcompacts := PruneList.compacts_of_not_pruned hunpruned
  have hkept : j ∈ start.backend.pruneList.keptLeaves n := PruneList.mem_keptLeaves.mpr ⟨hj, hcompacts⟩
  obtain ⟨hshift, hplace⟩ := hb.prunes.rooted.getElem?_kept hb.cached (PruneList.leafPos_mem_kept.mpr hkept)
  obtain ⟨hleafShift, hleafPlace⟩ := hb.prunes.rooted.getElem?_keptLeaves hb.cached hkept
  have hincludes : (p.rewind position restored).backend.leafSet.includes (leafPos j) = true := by
    simp only [PMMR.rewind, PMMRBackend.rewind, hahead.prunable, hprunable, ↓reduceIte, LeafSet.includes,
      LeafSet.rewind]
    exact decide_eq_true (LeafSet.mem_rewound.mpr (.inr hrestored))
  have hcompacted : (p.rewind position restored).backend.isCompacted (leafPos j) = false := by
    rw [PMMRBackend.isCompacted_eq, ← hcompacts, ← hahead.pruneList]
    rfl
  constructor
  . have hold : start.backend.hashFile.contents[leafPos j - start.backend.pruneList.getShift (leafPos j) - 1]?
        = some (hash (leafPos j)) := by
      rw [hb.hashes, List.getElem?_map, hplace]
      rfl
    have hle := hb.prunes.rooted.getShift_add_le hb.cached hcompacts (leafPos_le_mmrSize_iff.mpr hm)
    unfold PMMRBackend.getHash PMMRBackend.getFromFile AppendOnlyFile.read
    rw [hincludes, hcompacted]
    simp only [PMMR.rewind, PMMRBackend.rewind, hahead.pruneList, hposition]
    rw [if_neg (by simp), if_neg (by simp), if_neg (by omega)]
    exact AppendOnlyFile.readAt_rewind haligned.hashTidy hhash hahead.hashes hold (by omega)
  . have hold : start.backend.dataFile.contents[j + 1 - start.backend.pruneList.getLeafShift (leafPos j) - 1]?
        = some (elmt j) := by
      rw [hb.data, List.getElem?_map, hleafPlace]
      rfl
    have hle := hb.prunes.rooted.getLeafShift_add_le hb.cached hcompacts hm
    unfold PMMRBackend.getData PMMRBackend.getDataFromFile AppendOnlyFile.read
    rw [hincludes, hcompacted, isLeaf_leafPos, nLeaves_leafPos]
    simp only [PMMR.rewind, PMMRBackend.rewind, hahead.pruneList, hposition, nLeaves_mmrSize]
    rw [if_neg (by simp), if_neg (by simp), if_neg (by simp), if_neg (by simp), if_neg (by omega)]
    exact AppendOnlyFile.readAt_rewind haligned.dataTidy hdata hahead.data hold (by omega)

structure SameReads (env : Env) (p q : PMMR E) : Prop where
  root : (p.root env : Outcome String Hash) = q.root env
  unprunedSize : p.backend.unprunedSize = q.backend.unprunedSize
  leafSet : p.backend.leafSet.bitmap = q.backend.leafSet.bitmap
  unspent : ∀ pos ∈ q.backend.leafSet.bitmap, isLeaf pos = true →
    p.backend.getData pos = q.backend.getData pos ∧ p.backend.getHash pos = q.backend.getHash pos
  getFromFile : ∀ pos, p.backend.isCompacted pos = false →
    p.backend.getFromFile pos = q.backend.getFromFile pos

theorem Live.sameReads (h : p.Live) (hstores : p.Stores s n hash elmt) (hsettled : p.Settled)
    (hsize : n < 2 ^ 64) (hcutoff : cutoffPos ≤ mmrSize n) (rewindRmPos : Bitmap)
    : SameReads env (p.compacted cutoffPos rewindRmPos) p where
  root := root_compacted hstores hsettled hsize hcutoff rewindRmPos
  unprunedSize := by
    have hcompacted := hstores.backend.checkCompact hsettled hsize hcutoff rewindRmPos
    have hstores' : (p.compacted cutoffPos rewindRmPos).Stores _ n hash elmt := ⟨hstores.lastPos, hcompacted⟩
    rw [hstores.aligned.unprunedSize_eq hsettled,
      hstores'.aligned.unprunedSize_eq (hsettled.checkCompact cutoffPos rewindRmPos)]
  leafSet := rfl
  unspent pos hpos hleaf := by
    have hunpruned : (p.compacted cutoffPos rewindRmPos).backend.pruneList.isPruned pos = false :=
      not_pruned_compacted hstores hsize hcutoff hleaf (.inl hpos) (h pos hpos hleaf)
    have hcompacts := PruneList.compacts_of_not_pruned hunpruned
    have hhash := hstores.backend.getFromFile_checkCompact hsettled hsize hcutoff rewindRmPos hcompacts
    have hdata := hstores.backend.getDataFromFile_checkCompact hsettled hsize hcutoff rewindRmPos hcompacts
    unfold PMMRBackend.getData PMMRBackend.getHash
    exact ⟨by rw [← hdata]; rfl, by rw [← hhash]; rfl⟩
  getFromFile pos hpos := hstores.backend.getFromFile_checkCompact hsettled hsize hcutoff rewindRmPos hpos

theorem compact_preserves_reads [Nonempty E] (hreached : Reached T env base p) (hsettled : p.Settled)
    (hlive : p.Live) (hcutoff : cutoffPos ≤ p.lastPos)
    (hrm : ∀ pos ∈ rewindRmPos, p.Restorable pos)
    : SameReads env (p.compacted cutoffPos rewindRmPos) p
        ∧
      ∀ {removed restored : Bitmap} {p' : PMMR E} {m position : Nat},
        Later T env (p.compacted cutoffPos rewindRmPos) removed p'
          → p'.Settled
          → lastParent (position + 1) position = mmrSize m
          → restored ⊆ rewindRmPos
          → ∀ pos ∈ restored, pos ≤ mmrSize m
            → ∃ hash elmt,
                p.backend.getFromFile pos = some hash
                  ∧
                p.backend.getDataFromFile pos = some elmt
                  ∧
                (p'.rewind position restored).backend.getHash pos = some hash
                  ∧
                (p'.rewind position restored).backend.getData pos = some elmt := by
  have hworking := hreached.working
  obtain ⟨s, n, hash, elmt, hstores⟩ := hworking.stores
  rw [hstores.lastPos] at hcutoff
  have hn := hstores.lt_of_narrow hreached.narrow.2
  refine ⟨hlive.sameReads hstores hsettled hn hcutoff rewindRmPos, ?_⟩
  intro removed restored p' m position hlater hsettled' hposition hsub pos hpos hle
  obtain ⟨hleaf, hpositive, hlast, hunpruned⟩ := hrm pos (hsub hpos)
  have hunpruned' := not_pruned_compacted hstores hn hcutoff hleaf (.inr (hsub hpos)) hunpruned
  obtain ⟨j, rfl⟩ := exists_eq_leafPos hpositive hleaf
  rw [hstores.lastPos, leafPos_le_mmrSize_iff] at hlast
  have hkept : j ∈ p.backend.pruneList.keptLeaves n :=
    PruneList.mem_keptLeaves.mpr ⟨hlast, PruneList.compacts_of_not_pruned hunpruned⟩
  have hstores' : (p.compacted cutoffPos rewindRmPos).Stores _ n hash elmt :=
    ⟨hstores.lastPos, hstores.backend.checkCompact hsettled hn hcutoff rewindRmPos⟩
  obtain ⟨hhash, hdata⟩ := hlater.reads_rewind hstores' hworking.prunable hsettled'.hashFile.buffer
    hsettled'.dataFile.buffer hposition hlast hunpruned' hpos (leafPos_le_mmrSize_iff.mp hle)
  exact ⟨hash (leafPos j), elmt j,
    hstores.backend.getFromFile_of_mem (PruneList.leafPos_mem_kept.mpr hkept),
    hstores.backend.getDataFromFile_of_mem hkept, hhash, hdata⟩

end

namespace Sample

-- the first of two leaves is spent and pruned, then the second one is spent
def pruned₁ : PMMR TxKernel :=
  compacted (PMMR.sync { written₂ with backend := written₂.backend.remove 1 }) 3 ∅

def spentBoth : PMMR TxKernel := PMMR.sync { pruned₁ with backend := pruned₁.backend.remove 2 }

theorem reached_pruned₁
    : Reached TxKernel env pruned₁ pruned₁ := by
  have hreached := (reached_written₂.remove 1 (by decide)).sync
  exact hreached.compact ∅ hreached.working.settled (by decide)

theorem reached_spentBoth
    : Reached TxKernel env spentBoth spentBoth := (reached_pruned₁.remove 2 (by decide)).sync

end Sample

-- a leaf that is a pruned root itself is not compacted, but a compaction takes it away
open Sample in
theorem compact_loses_pruned_root
    : Reached TxKernel env spentBoth spentBoth
        ∧
      spentBoth.Settled
        ∧
      spentBoth.Live
        ∧
      spentBoth.lastPos = mmrSize 2
        ∧
      isLeaf 1 = true
        ∧
      spentBoth.backend.isCompacted 1 = false
        ∧
      spentBoth.backend.getDataFromFile 1 = some (kernel 1)
        ∧
      ((spentBoth.compacted 3 {1}).rewind 3 {1}).backend.getHash 1 = none
        ∧
      ((spentBoth.compacted 3 {1}).rewind 3 {1}).backend.getData 1 = none := by
  refine ⟨reached_spentBoth, reached_spentBoth.working.settled, ?_, ?_, ?_, ?_, ?_, ?_, ?_⟩
  . intro pos hpos
    have hempty : spentBoth.backend.leafSet.bitmap = ∅ := by decide
    rw [hempty] at hpos
    exact absurd hpos (Finset.notMem_empty pos)
  . decide
  . decide
  . decide
  . decide
  . decide
  . decide

-- the first leaf is spent, not pruned by the compaction and then restored
open Sample in
theorem compact_preserves_reads_written₃
    : SameReads env (written₃.compacted 4 {1}) written₃
        ∧
      ∃ hash elmt,
        written₃.backend.getFromFile 1 = some hash
          ∧
        written₃.backend.getDataFromFile 1 = some elmt
          ∧
        ((written₃.compacted 4 {1}).rewind 3 {1}).backend.getHash 1 = some hash
          ∧
        ((written₃.compacted 4 {1}).rewind 3 {1}).backend.getData 1 = some elmt := by
  have hsettled := reached_written₃.working.settled
  have hlive : written₃.Live := by
    unfold Live
    decide
  have hrm : ∀ pos ∈ ({1} : Bitmap), written₃.Restorable pos := by
    intro pos hpos
    rw [Finset.mem_singleton.mp hpos]
    exact ⟨by decide, by decide, by decide, by decide⟩
  have hcutoff : 4 ≤ written₃.lastPos := by decide
  obtain ⟨hsame, hrewind⟩ := compact_preserves_reads reached_written₃ hsettled hlive hcutoff hrm
  have hsize : lastParent (3 + 1) 3 = mmrSize 2 := by decide
  exact ⟨hsame, hrewind .start (hsettled.checkCompact 4 {1}) hsize (Finset.Subset.refl _) 1
    (Finset.mem_singleton_self 1) (by decide)⟩

end PMMR

end Epic
