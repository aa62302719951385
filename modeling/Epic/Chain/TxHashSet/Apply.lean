import Epic.Chain.TxHashSet.Discard
import Epic.Core.Pmmr.Leaves

/-!
This module contains what the application of a block does to the unspent outputs of an extension.
-/

namespace Epic
namespace Extension

open Routine

theorem onHeader_eq_ok
    : onHeader x ext = (.ok a, ext')
        ↔
      ∃ p, x ext.headerPmmr = (.ok a, p) ∧ { ext with headerPmmr := p } = ext' := by
  unfold onHeader
  rw [mapErr_eq_ok, zoom_eq_ok]

theorem onOutput_eq_ok
    : onOutput x ext = (.ok a, ext')
        ↔
      ∃ p, x ext.outputPmmr = (.ok a, p) ∧ { ext with outputPmmr := p } = ext' := by
  unfold onOutput
  rw [mapErr_eq_ok, zoom_eq_ok]

theorem onRproof_eq_ok
    : onRproof x ext = (.ok a, ext')
        ↔
      ∃ p, x ext.rproofPmmr = (.ok a, p) ∧ { ext with rproofPmmr := p } = ext' := by
  unfold onRproof
  rw [mapErr_eq_ok, zoom_eq_ok]

theorem onKernel_eq_ok
    : onKernel x ext = (.ok a, ext')
        ↔
      ∃ p, x ext.kernelPmmr = (.ok a, p) ∧ { ext with kernelPmmr := p } = ext' := by
  unfold onKernel
  rw [mapErr_eq_ok, zoom_eq_ok]

structure Creates (env : Env) (out : Output) (ext ext' : Extension) : Prop where
  fresh : UTXOView.validateOutput ext.outputPmmr ext.batch out = .ok ()
  pushed : ∃ pos,
    PMMR.push env out ext.outputPmmr = (.ok pos, ext'.outputPmmr)
      ∧
    ext'.batch = ext.batch.saveOutputPos out.commit pos
  proved : ∃ pos, PMMR.push env out.proof ext.rproofPmmr = (.ok pos, ext'.rproofPmmr)
  kernelPmmr : ext'.kernelPmmr = ext.kernelPmmr
  headerPmmr : ext'.headerPmmr = ext.headerPmmr
  rollback : ext'.rollback = ext.rollback

theorem creates_applyAndIndexOutput
    (h : applyAndIndexOutput env out ext = (.ok u, ext'))
    : Creates env out ext ext' := by
  obtain ⟨pos, ext₁, happly, hsave⟩ := bind_eq_ok.mp h
  rw [modify_eq_ok] at hsave
  obtain ⟨⟨⟩, ext₂, hfresh, happly⟩ := bind_eq_ok.mp happly
  simp only [checkNotDuplicate, query_eq_ok] at hfresh
  obtain ⟨hfresh, rfl⟩ := hfresh
  obtain ⟨outputPos, ext₃, houtput, happly⟩ := bind_eq_ok.mp happly
  rw [onOutput_eq_ok] at houtput
  obtain ⟨p, hpush, rfl⟩ := houtput
  obtain ⟨rproofPos, ext₄, hrproof, happly⟩ := bind_eq_ok.mp happly
  rw [onRproof_eq_ok] at hrproof
  obtain ⟨q, hproof, rfl⟩ := hrproof
  obtain ⟨sizes, ext₅, hsizes, happly⟩ := bind_eq_ok.mp happly
  rw [gets_eq_ok] at hsizes
  obtain ⟨-, rfl⟩ := hsizes
  obtain ⟨⟨⟩, ext₆, hsize, happly⟩ := bind_eq_ok.mp happly
  rw [lift_eq_ok] at hsize
  obtain ⟨-, rfl⟩ := hsize
  obtain ⟨⟨⟩, ext₇, hpos, happly⟩ := bind_eq_ok.mp happly
  rw [lift_eq_ok] at hpos
  obtain ⟨-, rfl⟩ := hpos
  simp only [pure_apply, Prod.mk.injEq, Outcome.ok.injEq] at happly
  obtain ⟨rfl, rfl⟩ := happly
  subst hsave
  exact ⟨hfresh, ⟨outputPos, hpush, rfl⟩, ⟨rproofPos, hproof⟩, rfl, rfl, rfl⟩

structure Spends (env : Env) (input : Input) (ext ext' : Extension) : Prop where
  pruned : ∃ pos,
    ext.batch.getOutputPos input.commit = some pos
      ∧
    (∀ hash, ext.outputPmmr.getHash pos = some hash →
      hash = hashWithIndex env input.write (pos - 1))
      ∧
    PMMR.prune pos ext.outputPmmr = (.ok true, ext'.outputPmmr)
  proved : ∃ pos pruned,
    ext.batch.getOutputPos input.commit = some pos
      ∧
    PMMR.prune pos ext.rproofPmmr = (.ok pruned, ext'.rproofPmmr)
  kernelPmmr : ext'.kernelPmmr = ext.kernelPmmr
  batch : ext'.batch = ext.batch
  headerPmmr : ext'.headerPmmr = ext.headerPmmr
  rollback : ext'.rollback = ext.rollback

theorem spends_applyInput
    (h : applyInput env input ext = (.ok u, ext'))
    : Spends env input ext ext' := by
  obtain ⟨pos, ext₁, hpos, h⟩ := bind_eq_ok.mp h
  rw [query_eq_ok, Outcome.okOr_eq_ok] at hpos
  obtain ⟨hpos, rfl⟩ := hpos
  obtain ⟨⟨⟩, ext₂, hhash, h⟩ := bind_eq_ok.mp h
  simp only [checkHash, query_eq_ok] at hhash
  obtain ⟨hhash, rfl⟩ := hhash
  obtain ⟨pruned, ext₃, hprune, h⟩ := bind_eq_ok.mp h
  rw [onOutput_eq_ok] at hprune
  obtain ⟨p, hprune, rfl⟩ := hprune
  obtain ⟨⟨⟩, ext₄, htrue, h⟩ := bind_eq_ok.mp h
  rw [lift_eq_ok, Outcome.require_eq_ok] at htrue
  obtain ⟨rfl, rfl⟩ := htrue
  obtain ⟨rpruned, ext₅, hrproof, h⟩ := bind_eq_ok.mp h
  rw [onRproof_eq_ok] at hrproof
  obtain ⟨q, hproof, rfl⟩ := hrproof
  simp only [pure_apply, Prod.mk.injEq] at h
  obtain ⟨-, rfl⟩ := h
  refine ⟨⟨pos, hpos, ?_, hprune⟩, ⟨pos, rpruned, hpos, hproof⟩, rfl, rfl, rfl, rfl⟩
  intro hash hsome
  rw [hsome] at hhash
  dsimp only at hhash
  rwa [Outcome.require_eq_ok] at hhash

structure Keeps (ext ext' : Extension) : Prop where
  outputPmmr : ext'.outputPmmr = ext.outputPmmr
  rproofPmmr : ext'.rproofPmmr = ext.rproofPmmr
  headerPmmr : ext'.headerPmmr = ext.headerPmmr
  batch : ext'.batch = ext.batch
  rollback : ext'.rollback = ext.rollback

theorem applyKernel_eq_ok
    (h : applyKernel env kernel ext = (.ok u, ext'))
    : ∃ pos p, PMMR.push env kernel ext.kernelPmmr = (.ok pos, p) ∧ { ext with kernelPmmr := p } = ext' := by
  obtain ⟨pos, ext₁, hpush, hpure⟩ := bind_eq_ok.mp h
  rw [onKernel_eq_ok] at hpush
  obtain ⟨p, hpush, rfl⟩ := hpush
  simp only [pure_apply, Prod.mk.injEq, true_and] at hpure
  exact ⟨pos, p, hpush, hpure⟩

theorem keeps_applyKernels
    (h : forEach kernels (applyKernel env) ext = (.ok u, ext'))
    : Keeps ext ext' := by
  apply forEach_eq_ok (fun _ => Keeps ext) ⟨rfl, rfl, rfl, rfl, rfl⟩ _ h
  intro _ kernel ext₁ ext₂ _ hkeeps hkernel
  obtain ⟨pos, p, -, rfl⟩ := applyKernel_eq_ok hkernel
  exact ⟨hkeeps.outputPmmr, hkeeps.rproofPmmr, hkeeps.headerPmmr, hkeeps.batch, hkeeps.rollback⟩

structure Applies (env : Env) (b : Block) (ext mid ext' : Extension) : Prop where
  outputs : ∃ pos p,
    PMMR.push env b.header ext.headerPmmr = (.ok pos, p)
      ∧
    forEach b.body.outputs (applyAndIndexOutput env) { ext with headerPmmr := p } = (.ok (), mid)
  inputs : ∃ last, forEach b.body.inputs (applyInput env) mid = (.ok (), last) ∧ Keeps last ext'
  kernels : ∃ last ext₁,
    forEach b.body.inputs (applyInput env) mid = (.ok (), last)
      ∧
    forEach b.body.kernels (applyKernel env) last = (.ok (), ext₁)
      ∧
    ext'.kernelPmmr = ext₁.kernelPmmr
  header : ext'.header = b.header

theorem applies_applyBlock
    (h : applyBlock env b ext = (.ok u, ext'))
    : ∃ mid, Applies env b ext mid ext' := by
  obtain ⟨⟨⟩, ext₁, hheader, h⟩ := bind_eq_ok.mp h
  obtain ⟨pos, ext₂, hpush, hpure⟩ := bind_eq_ok.mp hheader
  rw [onHeader_eq_ok] at hpush
  obtain ⟨p, hpush, rfl⟩ := hpush
  simp only [pure_apply, Prod.mk.injEq] at hpure
  obtain ⟨-, rfl⟩ := hpure
  obtain ⟨⟨⟩, mid, houtputs, h⟩ := bind_eq_ok.mp h
  obtain ⟨⟨⟩, last, hinputs, h⟩ := bind_eq_ok.mp h
  obtain ⟨⟨⟩, ext₃, hkernels, h⟩ := bind_eq_ok.mp h
  rw [modify_eq_ok] at h
  have hkeeps := keeps_applyKernels hkernels
  subst h
  exact ⟨mid, ⟨pos, p, hpush, houtputs⟩,
    ⟨last, hinputs, hkeeps.outputPmmr, hkeeps.rproofPmmr, hkeeps.headerPmmr, hkeeps.batch,
      hkeeps.rollback⟩,
    ⟨last, ext₃, hinputs, hkernels, rfl⟩, rfl⟩

structure SameButIndex (b b' : Batch) : Prop where
  frame : b.Frame b'
  blockSums : b'.db.blockSums = b.db.blockSums
  inputBitmaps : b'.db.inputBitmaps = b.db.inputBitmaps

structure Follows (ext ext' : Extension) : Prop where
  batch : SameButIndex ext.batch ext'.batch
  headerPmmr : ext'.headerPmmr = ext.headerPmmr
  rollback : ext'.rollback = ext.rollback

theorem Follows.refl (ext : Extension)
    : Follows ext ext := ⟨⟨.refl _, rfl, rfl⟩, rfl, rfl⟩

theorem Follows.trans (h₁₂ : Follows ext₁ ext₂)
    (h₂₃ : Follows ext₂ ext₃)
    : Follows ext₁ ext₃ where
  batch := ⟨h₁₂.batch.frame.trans h₂₃.batch.frame,
    h₂₃.batch.blockSums.trans h₁₂.batch.blockSums,
    h₂₃.batch.inputBitmaps.trans h₁₂.batch.inputBitmaps⟩
  headerPmmr := h₂₃.headerPmmr.trans h₁₂.headerPmmr
  rollback := h₂₃.rollback.trans h₁₂.rollback

theorem Creates.follows
    (h : Creates env out ext ext')
    : Follows ext ext' := by
  obtain ⟨pos, -, hbatch⟩ := h.pushed
  refine ⟨?_, h.headerPmmr, h.rollback⟩
  rw [hbatch]
  exact ⟨ext.batch.frame_saveOutputPos out.commit pos, rfl, rfl⟩

theorem Spends.follows
    (h : Spends env input ext ext')
    : Follows ext ext' := by
  refine ⟨?_, h.headerPmmr, h.rollback⟩
  rw [h.batch]
  exact ⟨.refl _, rfl, rfl⟩

theorem follows_applyBlock
    (h : applyBlock env b ext = (.ok u, ext'))
    : ∃ pos p,
        PMMR.push env b.header ext.headerPmmr = (.ok pos, p)
          ∧
        Follows { ext with headerPmmr := p } ext' := by
  obtain ⟨mid, happlies⟩ := applies_applyBlock h
  obtain ⟨pos, p, hpush, houtputs⟩ := happlies.outputs
  obtain ⟨last, hinputs, hkeeps⟩ := happlies.inputs
  refine ⟨pos, p, hpush, ?_⟩
  have hmid : Follows { ext with headerPmmr := p } mid := by
    apply forEach_eq_ok (fun _ => Follows { ext with headerPmmr := p }) (.refl _) _ houtputs
    intro _ out ext₁ ext₂ _ hfollows hout
    exact hfollows.trans (creates_applyAndIndexOutput hout).follows
  have hlast : Follows { ext with headerPmmr := p } last := by
    apply forEach_eq_ok (fun _ => Follows { ext with headerPmmr := p }) hmid _ hinputs
    intro _ input ext₁ ext₂ _ hfollows hinput
    exact hfollows.trans (spends_applyInput hinput).follows
  apply hlast.trans
  refine ⟨?_, hkeeps.headerPmmr, hkeeps.rollback⟩
  rw [hkeeps.batch]
  exact ⟨.refl _, rfl, rfl⟩

end Extension
end Epic
