import Epic.Chain.TxHashSet.Apply
import Epic.Chain.TxHashSet.Headers

/-!
This module contains the mountain ranges that hold the headers, outputs, range proofs and kernels of a
branch of blocks, and what taking in a block and rewinding do to the branch they hold.
-/

namespace Epic

open Routine Pmmr

def headersOf (branch : List Block) : List BlockHeader := branch.map (·.header)

def outputsOf (branch : List Block) : List Output := branch.flatMap (·.body.outputs)

def kernelsOf (branch : List Block) : List TxKernel := branch.flatMap (·.body.kernels)

theorem headersOf_concat (branch : List Block) (b : Block)
    : headersOf (branch ++ [b]) = headersOf branch ++ [b.header] := by
  simp [headersOf]

theorem outputsOf_concat (branch : List Block) (b : Block)
    : outputsOf (branch ++ [b]) = outputsOf branch ++ b.body.outputs := by
  simp [outputsOf]

theorem kernelsOf_concat (branch : List Block) (b : Block)
    : kernelsOf (branch ++ [b]) = kernelsOf branch ++ b.body.kernels := by
  simp [kernelsOf]

theorem headersOf_take (branch : List Block) (n : Nat)
    : headersOf (branch.take n) = (headersOf branch).take n := by
  simp [headersOf, List.map_take]

theorem outputsOf_take_append (branch : List Block) (n : Nat)
    : outputsOf (branch.take n) ++ outputsOf (branch.drop n) = outputsOf branch := by
  unfold outputsOf
  rw [← List.flatMap_append, List.take_append_drop]

theorem kernelsOf_take_append (branch : List Block) (n : Nat)
    : kernelsOf (branch.take n) ++ kernelsOf (branch.drop n) = kernelsOf branch := by
  unfold kernelsOf
  rw [← List.flatMap_append, List.take_append_drop]

structure MmrsHold (env : Env) (branch : List Block) (headerPmmr : PMMR HeaderEntry)
    (outputPmmr : PMMR OutputIdentifier) (rproofPmmr : PMMR RangeProof) (kernelPmmr : PMMR TxKernel)
    : Prop where
  header : headerPmmr.Holds (PMMR.leavesOf env (headersOf branch))
  output : outputPmmr.Holds (PMMR.leavesOf env (outputsOf branch))
  rproof : rproofPmmr.Holds (PMMR.leavesOf env ((outputsOf branch).map (·.proof)))
  kernel : kernelPmmr.Holds (PMMR.leavesOf env (kernelsOf branch))
  headerKept : headerPmmr.backend.prunable = false
  outputPruned : outputPmmr.backend.prunable = true

abbrev TxHashSet.Holds (env : Env) (branch : List Block) (t : TxHashSet) : Prop :=
  MmrsHold env branch t.headerPmmr t.outputPmmr t.rproofPmmr t.kernelPmmr

abbrev Extension.Holds (env : Env) (branch : List Block) (ext : Extension) : Prop :=
  MmrsHold env branch ext.headerPmmr ext.outputPmmr ext.rproofPmmr ext.kernelPmmr

theorem TxHashSet.Holds.new (env : Env)
    : TxHashSet.new.Holds env [] := ⟨.new _, .new _, .new _, .new _, rfl, rfl⟩

namespace MmrsHold

variable {env : Env} {branch : List Block} {headerPmmr : PMMR HeaderEntry}
  {outputPmmr : PMMR OutputIdentifier} {rproofPmmr : PMMR RangeProof} {kernelPmmr : PMMR TxKernel}

theorem tracks (h : MmrsHold env branch headerPmmr outputPmmr rproofPmmr kernelPmmr)
    : headerPmmr.Tracks env (headersOf branch) := by
  refine ⟨⟨_, h.header, ?_⟩, h.headerKept⟩
  apply List.ext_getElem?
  intro n
  rw [List.getElem?_map, PMMR.getElem?_leavesOf, Option.map_map, List.getElem?_map]
  rfl

theorem sync (h : MmrsHold env branch headerPmmr outputPmmr rproofPmmr kernelPmmr)
    : MmrsHold env branch headerPmmr.sync outputPmmr.sync rproofPmmr.sync kernelPmmr.sync :=
  ⟨h.header.sync, h.output.sync, h.rproof.sync, h.kernel.sync, h.headerKept, h.outputPruned⟩

end MmrsHold

theorem PMMR.Holds.of_prune (h : p.Holds leaves) (hprune : PMMR.prune pos p = (.ok pruned, p'))
    : p'.Holds leaves := by
  cases pruned with
  | true =>
    obtain ⟨n, -, hpruned⟩ := h.prune hprune
    exact hpruned.holds h
  | false =>
    unfold PMMR.prune at hprune
    split at hprune
    . simp at hprune
    . split at hprune
      . rw [← (Prod.mk.inj hprune).2]
        exact h
      . split at hprune <;> simp at hprune

namespace Extension

variable {env : Env} {branch : List Block} {ext ext' : Extension} {u : Unit}

structure HoldsOutputs (env : Env) (outputs : List Output) (headerPmmr : PMMR HeaderEntry)
    (kernelPmmr : PMMR TxKernel) (ext : Extension) : Prop where
  output : ext.outputPmmr.Holds (PMMR.leavesOf env outputs)
  rproof : ext.rproofPmmr.Holds (PMMR.leavesOf env (outputs.map (·.proof)))
  outputPruned : ext.outputPmmr.backend.prunable = true
  headerPmmr : ext.headerPmmr = headerPmmr
  kernelPmmr : ext.kernelPmmr = kernelPmmr

theorem HoldsOutputs.create {outputs : List Output} {headerPmmr : PMMR HeaderEntry}
    {kernelPmmr : PMMR TxKernel} {out : Output}
    (h : HoldsOutputs env outputs headerPmmr kernelPmmr ext) (hcreates : Creates env out ext ext')
    : HoldsOutputs env (outputs ++ [out]) headerPmmr kernelPmmr ext' := by
  obtain ⟨pos, hpush, -⟩ := hcreates.pushed
  obtain ⟨rpos, hproof⟩ := hcreates.proved
  obtain ⟨-, hpushed, houtput⟩ := h.output.push_leavesOf hpush
  obtain ⟨-, -, hrproof⟩ := h.rproof.push_leavesOf hproof
  refine ⟨houtput, ?_, hpushed.prunable.trans h.outputPruned, hcreates.headerPmmr.trans h.headerPmmr,
    hcreates.kernelPmmr.trans h.kernelPmmr⟩
  rw [List.map_append]
  exact hrproof

theorem HoldsOutputs.spend {outputs : List Output} {headerPmmr : PMMR HeaderEntry}
    {kernelPmmr : PMMR TxKernel} {input : Input}
    (h : HoldsOutputs env outputs headerPmmr kernelPmmr ext) (hspends : Spends env input ext ext')
    : HoldsOutputs env outputs headerPmmr kernelPmmr ext' := by
  obtain ⟨pos, -, -, hprune⟩ := hspends.pruned
  obtain ⟨rpos, pruned, -, hproof⟩ := hspends.proved
  refine ⟨h.output.of_prune hprune, h.rproof.of_prune hproof, ?_,
    hspends.headerPmmr.trans h.headerPmmr, hspends.kernelPmmr.trans h.kernelPmmr⟩
  obtain ⟨n, -, hpruned⟩ := h.output.prune hprune
  rw [hpruned.state]
  exact h.outputPruned

theorem Holds.applyBlock (h : ext.Holds env branch)
    (happly : Extension.applyBlock env b ext = (.ok u, ext'))
    : ext'.Holds env (branch ++ [b]) := by
  obtain ⟨mid, happlies⟩ := applies_applyBlock happly
  obtain ⟨pos, p, hpush, houtputs⟩ := happlies.outputs
  obtain ⟨last, hinputs, hkeeps⟩ := happlies.inputs
  obtain ⟨last', ext₁, hinputs', hkernels, hkernelPmmr⟩ := happlies.kernels
  obtain ⟨-, hlast⟩ := Prod.mk.inj (hinputs.symm.trans hinputs')
  subst hlast
  obtain ⟨-, hpushed, hheader⟩ := h.header.push_leavesOf hpush
  have hmid : HoldsOutputs env (outputsOf branch ++ b.body.outputs) p ext.kernelPmmr mid := by
    apply forEach_eq_ok
      (fun done => HoldsOutputs env (outputsOf branch ++ done) p ext.kernelPmmr) _ _ houtputs
    . rw [List.append_nil]
      exact ⟨h.output, h.rproof, h.outputPruned, rfl, rfl⟩
    . intro done out ext₁ ext₂ _ hdone hout
      rw [← List.append_assoc]
      exact hdone.create (creates_applyAndIndexOutput hout)
  have hlast : HoldsOutputs env (outputsOf branch ++ b.body.outputs) p ext.kernelPmmr last := by
    apply forEach_eq_ok
      (fun _ => HoldsOutputs env (outputsOf branch ++ b.body.outputs) p ext.kernelPmmr) hmid _ hinputs
    intro _ input ext₁ ext₂ _ hdone hinput
    exact hdone.spend (spends_applyInput hinput)
  have hkernel : ext₁.kernelPmmr.Holds (PMMR.leavesOf env (kernelsOf branch ++ b.body.kernels)) := by
    apply forEach_eq_ok
      (fun done ext₁ => ext₁.kernelPmmr.Holds (PMMR.leavesOf env (kernelsOf branch ++ done))) _ _
      hkernels
    . rw [List.append_nil, hlast.kernelPmmr]
      exact h.kernel
    . intro done kernel ext₂ ext₃ _ hdone hkernel
      obtain ⟨pos, q, hpush, rfl⟩ := applyKernel_eq_ok hkernel
      rw [← List.append_assoc]
      exact (hdone.push_leavesOf hpush).2.2
  unfold Holds
  rw [hkeeps.headerPmmr, hkeeps.outputPmmr, hkeeps.rproofPmmr, hkernelPmmr, hlast.headerPmmr]
  refine ⟨?_, ?_, ?_, ?_, hpushed.prunable.trans h.headerKept, hlast.outputPruned⟩
  . rw [headersOf_concat]
    exact hheader
  . rw [outputsOf_concat]
    exact hlast.output
  . rw [outputsOf_concat]
    exact hlast.rproof
  . rw [kernelsOf_concat]
    exact hkernel

end Extension

-- the headers of a branch record the sizes that the mountain ranges have after them
structure Recorded (branch : List Block) (n : Nat) (b : Block) : Prop where
  output : b.header.outputMmrSize.toNat = mmrSize (outputsOf (branch.take (n + 1))).length
  kernel : b.header.kernelMmrSize.toNat = mmrSize (kernelsOf (branch.take (n + 1))).length

theorem Recorded.singleton
    (houtputs : b.header.outputMmrSize.toNat = mmrSize b.body.outputs.length)
    (hkernels : b.header.kernelMmrSize.toNat = mmrSize b.body.kernels.length)
    : Recorded [b] 0 b := by
  refine ⟨?_, ?_⟩
  . simpa [outputsOf] using houtputs
  . simpa [kernelsOf] using hkernels

def SizesRecorded (branch : List Block) : Prop :=
  ∀ n b, branch[n]? = some b → Recorded branch n b

instance (branch : List Block) : Decidable (SizesRecorded branch) :=
  decidable_of_iff
    (∀ n (hn : n < branch.length),
      branch[n].header.outputMmrSize.toNat = mmrSize (outputsOf (branch.take (n + 1))).length
        ∧ branch[n].header.kernelMmrSize.toNat = mmrSize (kernelsOf (branch.take (n + 1))).length)
    ⟨fun h n b hb => by
        obtain ⟨hn, rfl⟩ := List.getElem?_eq_some_iff.mp hb
        exact ⟨(h n hn).1, (h n hn).2⟩,
      fun h n hn =>
        have hrecorded := h n _ (List.getElem?_eq_getElem hn)
        ⟨hrecorded.output, hrecorded.kernel⟩⟩

theorem SizesRecorded.take (h : SizesRecorded branch) (n : Nat)
    : SizesRecorded (branch.take n) := by
  intro i b hb
  rw [List.getElem?_take] at hb
  split at hb
  . next hlt =>
    obtain ⟨houtput, hkernel⟩ := h i b hb
    refine ⟨?_, ?_⟩ <;> rw [List.take_take, Nat.min_eq_left (by omega)] <;> assumption
  . contradiction

theorem SizesRecorded.concat (h : SizesRecorded branch)
    (hb : Recorded (branch ++ [b]) branch.length b)
    : SizesRecorded (branch ++ [b]) := by
  intro i b' hb'
  rcases Nat.lt_trichotomy i branch.length with hlt | heq | hgt
  . rw [List.getElem?_append_left hlt] at hb'
    obtain ⟨houtput, hkernel⟩ := h i b' hb'
    refine ⟨?_, ?_⟩ <;> rw [List.take_append_of_le_length (by omega)] <;> assumption
  . rw [heq, List.getElem?_concat_length, Option.some.injEq] at hb'
    rw [heq, ← hb']
    exact hb
  . rw [List.getElem?_eq_none (by simp; omega)] at hb'
    contradiction

theorem PMMR.Holds.inRange {E : Type} {p : PMMR E} {leaves : List (E × Hash)} (h : p.Holds leaves)
    (hsettled : p.Settled)
    : p.InRange := ⟨hsettled.hashFile.inRange h.hashTidy, hsettled.dataFile.inRange h.dataTidy⟩

theorem PMMR.Holds.rewind_leavesOf {T E : Type} [PMMRable T E] {env : Env} {p : PMMR E}
    {kept dropped : List T} (h : p.Holds (leavesOf env (kept ++ dropped))) (hsettled : p.Settled)
    (position : Nat) (hposition : lastParent (position + 1) position = mmrSize kept.length)
    (rewindRmPos : Bitmap)
    : (p.rewind position rewindRmPos).Holds (leavesOf env kept)
        ∧
      (p.rewind position rewindRmPos).InRange := by
  have hrange := h.inRange hsettled
  have hlength : kept.length ≤ (leavesOf env (kept ++ dropped)).length := by simp
  have hrewound := h.rewind hsettled.hashFile.buffer hsettled.dataFile.buffer hlength hposition
    rewindRmPos
  rw [take_leavesOf, List.take_left] at hrewound
  refine ⟨hrewound, ?_, ?_⟩
  . exact hrange.hashFile.rewind hrewound.hashTidy.start
  . exact hrange.dataFile.rewind hrewound.dataTidy.start

namespace Extension

variable {env : Env} {branch : List Block} {st : ChainState} {ext ext' : Extension} {u : Unit}

abbrev InRange : Extension → Prop :=
  Each PMMR.InRange PMMR.InRange PMMR.InRange PMMR.InRange fun _ => True

theorem stable_inRange
    : Stable PMMR.InRange PMMR.InRange PMMR.InRange PMMR.InRange fun _ => True :=
  ⟨PMMR.stable_inRange, PMMR.stable_inRange, PMMR.stable_inRange, PMMR.stable_inRange,
    fun _ _ _ _ => trivial, fun _ _ _ _ => trivial⟩

theorem InRange.new (hst : st.trees.Settled) (hholds : st.trees.Holds env branch)
    (header : BlockHeader)
    : InRange (.new st header) where
  headerPmmr := hholds.header.inRange hst.headerPmmr
  outputPmmr := hholds.output.inRange hst.outputPmmr
  rproofPmmr := hholds.rproof.inRange hst.rproofPmmr
  kernelPmmr := hholds.kernel.inRange hst.kernelPmmr
  batch := trivial

theorem Pending.discard_eq (hst : st.trees.Settled) (hholds : st.trees.Holds env branch)
    (hext : Pending st ext) (hrange : ext.InRange)
    : ext.discard st.trees = st.trees := by
  have hheader := PMMR.discard_eq hst.headerPmmr hholds.header.hashTidy hholds.header.dataTidy
    hext.headerPmmr hrange.headerPmmr
  have houtput := PMMR.discard_eq hst.outputPmmr hholds.output.hashTidy hholds.output.dataTidy
    hext.outputPmmr hrange.outputPmmr
  have hrproof := PMMR.discard_eq hst.rproofPmmr hholds.rproof.hashTidy hholds.rproof.dataTidy
    hext.rproofPmmr hrange.rproofPmmr
  have hkernel := PMMR.discard_eq hst.kernelPmmr hholds.kernel.hashTidy hholds.kernel.dataTidy
    hext.kernelPmmr hrange.kernelPmmr
  unfold PMMR.discard at hheader houtput hrproof hkernel
  unfold Extension.discard
  rw [hheader, houtput, hrproof, hkernel]

structure Rewinds (env : Env) (header : BlockHeader) (ext ext' : Extension) (rewindRmPos : Bitmap)
    (batch : Batch) : Prop where
  found : inputPosToRewind env header ext.header ext.batch = (.ok rewindRmPos, batch)
  state : ext' = { ext with
    header := header
    headerPmmr := ext.headerPmmr.rewind (insertionToPmmrIndex (header.height.toNat + 1)) ∅
    outputPmmr := ext.outputPmmr.rewind header.outputMmrSize.toNat rewindRmPos
    rproofPmmr := ext.rproofPmmr.rewind header.outputMmrSize.toNat rewindRmPos
    kernelPmmr := ext.kernelPmmr.rewind header.kernelMmrSize.toNat ∅
    batch := batch }

theorem rewind_eq_ok {header : BlockHeader} (h : rewind env header ext = (.ok u, ext'))
    : ∃ rewindRmPos batch, Rewinds env header ext ext' rewindRmPos batch := by
  obtain ⟨head, ext₁, hhead, h⟩ := bind_eq_ok.mp h
  rw [gets_eq_ok] at hhead
  obtain ⟨rfl, rfl⟩ := hhead
  obtain ⟨rewindRmPos, ext₁, hfound, h⟩ := bind_eq_ok.mp h
  simp only [onBatch, zoom_eq_ok] at hfound
  obtain ⟨batch, hfound, rfl⟩ := hfound
  obtain ⟨⟨⟩, ext₁, hrewind, h⟩ := bind_eq_ok.mp h
  simp only [rewindToPos, modify_eq_ok] at hrewind
  rw [modify_eq_ok] at h
  refine ⟨rewindRmPos, batch, hfound, ?_⟩
  rw [← h, ← hrewind]

theorem Rewinds.rewind_eq {header : BlockHeader} {rewindRmPos : Bitmap} {batch : Batch}
    (h : Rewinds env header ext ext' rewindRmPos batch)
    : rewind env header ext = (.ok (), ext') := by
  apply bind_eq_ok.mpr
  refine ⟨ext.header, ext, gets_eq_ok.mpr ⟨rfl, rfl⟩, ?_⟩
  apply bind_eq_ok.mpr
  refine ⟨rewindRmPos, { ext with batch := batch }, zoom_eq_ok.mpr ⟨batch, h.found, rfl⟩, ?_⟩
  rw [h.state]
  rfl

theorem inputPosToRewind_self (header : BlockHeader) (batch : Batch)
    : inputPosToRewind env header header batch = (.ok ∅, batch) := by
  unfold inputPosToRewind
  rw [if_neg (UInt64.lt_irrefl _)]
  unfold inputPosToRewind.go
  rw [if_pos (.inl rfl)]
  rfl

theorem Holds.rewind {n : Nat} {b : Block} (hst : st.trees.Settled) (hholds : st.trees.Holds env branch)
    (hrecorded : SizesRecorded branch) (hb : branch[n]? = some b) (hheight : b.header.height.toNat = n)
    {header : BlockHeader} {rewindRmPos : Bitmap} {batch : Batch}
    (h : Rewinds env b.header (.new st header) ext' rewindRmPos batch)
    : ext'.Holds env (branch.take (n + 1)) ∧ ext'.InRange := by
  obtain ⟨houtputSize, hkernelSize⟩ := hrecorded n b hb
  have hlength : (headersOf (branch.take (n + 1))).length = n + 1 := by
    obtain ⟨hlt, -⟩ := List.getElem?_eq_some_iff.mp hb
    simp [headersOf]
    omega
  have hheaders : headersOf branch
      = headersOf (branch.take (n + 1)) ++ headersOf (branch.drop (n + 1)) := by
    unfold headersOf
    rw [← List.map_append, List.take_append_drop]
  have hheader := hholds.header
  have houtput := hholds.output
  have hrproof := hholds.rproof
  have hkernel := hholds.kernel
  rw [hheaders] at hheader
  rw [← outputsOf_take_append branch (n + 1)] at houtput hrproof
  rw [List.map_append] at hrproof
  rw [← kernelsOf_take_append branch (n + 1)] at hkernel
  have hheader' := hheader.rewind_leavesOf hst.headerPmmr (insertionToPmmrIndex (b.header.height.toNat + 1))
    (by rw [hheight, insertionToPmmrIndex_succ, PMMR.lastParent_leafPos, hlength]) ∅
  have houtput' := houtput.rewind_leavesOf hst.outputPmmr b.header.outputMmrSize.toNat
    (by rw [houtputSize, PMMR.lastParent_mmrSize]) rewindRmPos
  have hrproof' := hrproof.rewind_leavesOf hst.rproofPmmr b.header.outputMmrSize.toNat
    (by rw [houtputSize, PMMR.lastParent_mmrSize, List.length_map]) rewindRmPos
  have hkernel' := hkernel.rewind_leavesOf hst.kernelPmmr b.header.kernelMmrSize.toNat
    (by rw [hkernelSize, PMMR.lastParent_mmrSize]) ∅
  rw [h.state]
  exact ⟨⟨hheader'.1, houtput'.1, hrproof'.1, hkernel'.1, hholds.headerKept, hholds.outputPruned⟩,
    ⟨hheader'.2, houtput'.2, hrproof'.2, hkernel'.2, trivial⟩⟩

theorem inRange_rewind {n : Nat} {b : Block} (hst : st.trees.Settled)
    (hholds : st.trees.Holds env branch) (hrecorded : SizesRecorded branch) (hb : branch[n]? = some b)
    (hheight : b.header.height.toNat = n) (header : BlockHeader)
    : (Extension.rewind env b.header (.new st header)).2.InRange := by
  have hnew := InRange.new hst hholds header
  apply snd_bind hnew
  intro head ext₁ hhead
  rw [gets_eq_ok] at hhead
  obtain ⟨rfl, rfl⟩ := hhead
  apply snd_bind (preserves_onBatch (fun _ _ => trivial) _ hnew)
  intro rewindRmPos ext₁ hfound
  simp only [onBatch, zoom_eq_ok] at hfound
  obtain ⟨batch, hfound, rfl⟩ := hfound
  exact (Holds.rewind hst hholds hrecorded hb hheight ⟨hfound, rfl⟩).2

end Extension
end Epic
