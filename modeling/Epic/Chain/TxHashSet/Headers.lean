import Epic.Chain.Store.Branch
import Epic.Chain.TxHashSet.Discard
import Epic.Core.Pmmr.Leaves

/-!
This module contains the header mountain ranges that hold the hashes of a branch, one leaf for each
height.
-/

namespace Epic

open Routine Pmmr

namespace PMMR

structure Tracks (env : Env) (p : PMMR HeaderEntry) (branch : List BlockHeader) : Prop where
  leaves : ∃ leaves, p.Holds leaves ∧ leaves.map (·.1.hash) = branch.map (·.hash env)
  prunable : p.backend.prunable = false

namespace Tracks

variable {env : Env} {p p' : PMMR HeaderEntry} {branch : List BlockHeader}

theorem lastPos (h : p.Tracks env branch)
    : p.lastPos = mmrSize branch.length := by
  obtain ⟨leaves, hholds, hhashes⟩ := h.leaves
  have hlength := congrArg List.length hhashes
  simp only [List.length_map] at hlength
  rw [hholds.lastPos, hlength]

theorem getHeaderHash (h : p.Tracks env branch) (n : Nat)
    : getHeaderHash p (insertionToPmmrIndex (n + 1)) = branch[n]?.map (·.hash env) := by
  obtain ⟨leaves, hholds, hhashes⟩ := h.leaves
  have hhas : p.has (leafPos n) = true := by simp [PMMR.has, h.prunable]
  have hn := congrArg (·[n]?) hhashes
  simp only [List.getElem?_map] at hn
  rw [insertionToPmmrIndex_succ, ← hn]
  unfold Epic.getHeaderHash
  rw [hholds.getData, hhas, if_pos rfl, Option.map_map]
  rfl

theorem push (h : p.Tracks env branch)
    (hpush : PMMR.push env header p = (.ok pos, p'))
    : p'.Tracks env (branch ++ [header]) := by
  obtain ⟨leaves, hholds, hhashes⟩ := h.leaves
  obtain ⟨-, hpushed⟩ := hholds.push hpush
  refine ⟨⟨_, hpushed.holds, ?_⟩, hpushed.prunable.trans h.prunable⟩
  rw [List.map_append, List.map_append, hhashes]
  rfl

theorem rewind (h : p.Tracks env branch) (hsettled : p.Settled) (hn : n < branch.length)
    (rewindRmPos : Bitmap)
    : (p.rewind (insertionToPmmrIndex (n + 1)) rewindRmPos).Tracks env (branch.take (n + 1)) := by
  obtain ⟨leaves, hholds, hhashes⟩ := h.leaves
  have hlength := congrArg List.length hhashes
  simp only [List.length_map] at hlength
  have hrewound := hholds.rewind hsettled.hashFile.buffer hsettled.dataFile.buffer (n := n + 1)
    (by omega) (lastParent_leafPos n) rewindRmPos
  rw [insertionToPmmrIndex_succ]
  refine ⟨⟨_, hrewound, ?_⟩, h.prunable⟩
  rw [List.map_take, List.map_take, hhashes]

theorem sync (h : p.Tracks env branch)
    : p.sync.Tracks env branch := by
  obtain ⟨leaves, hholds, hhashes⟩ := h.leaves
  exact ⟨⟨leaves, hholds.sync, hhashes⟩, h.prunable⟩

theorem truncate (hsettled : p.Settled) (hprunable : p.backend.prunable = false)
    (hpruneList : p.backend.pruneList = .new)
    : p.truncate.Tracks env [] := by
  have hdata : p.truncate.backend.dataFile = p.backend.dataFile.rewind 0 := by
    have hzero : nLeaves 0 = 0 := nLeaves_mmrSize 0
    simp [PMMR.truncate, PMMRBackend.rewind, hpruneList, hzero]
  have hhash : p.truncate.backend.hashFile = p.backend.hashFile.rewind 0 := by
    simp [PMMR.truncate, PMMRBackend.rewind, hpruneList]
  refine ⟨⟨[], ⟨rfl, hpruneList, ?_, ?_, ?_, ?_, by simp⟩, rfl⟩, hprunable⟩
  . rw [hdata]
    exact hsettled.dataFile.tidy_rewind_zero
  . rw [hhash]
    exact hsettled.hashFile.tidy_rewind_zero
  . rw [hdata, hsettled.dataFile.contents_rewind_zero]
    rfl
  . rw [hhash, hsettled.hashFile.contents_rewind_zero]
    rfl

theorem congr {branch' : List BlockHeader} (h : p.Tracks env branch)
    (hhashes : branch.map (·.hash env) = branch'.map (·.hash env))
    : p.Tracks env branch' := by
  obtain ⟨leaves, hholds, hleaves⟩ := h.leaves
  exact ⟨⟨leaves, hholds, hleaves.trans hhashes⟩, h.prunable⟩

end Tracks

theorem Holds.discard_eq {E : Type} {base p : PMMR E} {leaves : List (E × Hash)}
    (h : base.Holds leaves) (hsettled : base.Settled) (hne : leaves ≠ []) (hp : base.Pending p)
    : discard base p = base := by
  have hpos : 0 < leaves.length := List.length_pos_iff.mpr hne
  have hhash : base.backend.hashFile.file ≠ [] := by
    intro hnil
    have hlength := h.hashLength
    have := le_mmrSize leaves.length
    simp only [AppendOnlyFile.contents, hnil, hsettled.hashFile.buffer, List.take_nil,
      List.append_nil, List.length_nil] at hlength
    omega
  have hdata : base.backend.dataFile.file ≠ [] := by
    intro hnil
    have hlength := congrArg List.length h.data
    simp only [AppendOnlyFile.contents, hnil, hsettled.dataFile.buffer, List.take_nil,
      List.append_nil, List.length_nil, List.length_map] at hlength
    omega
  have hbackend : p.backend.discard = base.backend := by
    unfold PMMRBackend.discard
    rw [hp.hashFile.discard.resolve_left hhash, hp.dataFile.discard.resolve_left hdata,
      LeafSet.discard_eq hsettled.leafSet hp.leafSetBak, hp.prunable, hp.pruneList]
  unfold discard
  rw [hbackend]

theorem Tracks.discard_eq
    (h : base.Tracks env branch) (hsettled : base.Settled) (hne : branch ≠ []) (hp : base.Pending p)
    : discard base p = base := by
  obtain ⟨leaves, hholds, hhashes⟩ := h.leaves
  apply hholds.discard_eq hsettled _ hp
  rintro rfl
  simp only [List.map_nil] at hhashes
  exact hne (List.map_eq_nil_iff.mp hhashes.symm)

end PMMR
end Epic
