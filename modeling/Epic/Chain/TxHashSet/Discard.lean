import Epic.Chain.Pipe
import Epic.Core.Pmmr.Working

/-!
This module contains what a unit of work on the mountain ranges can touch, and what is left of it once
it is discarded.
-/

namespace Epic

open Routine

/-!
A unit of work on all mountain ranges writes to the position index, the block sums and the input
bitmaps of its batch, and to nothing else.
-/

structure Batch.Frame (b b' : Batch) : Prop where
  committed : b'.committed = b.committed
  head : b'.db.head = b.db.head
  tail : b'.db.tail = b.db.tail
  headerHead : b'.db.headerHead = b.db.headerHead
  syncHead : b'.db.syncHead = b.db.syncHead
  blocks : b'.db.blocks = b.db.blocks
  headers : b'.db.headers = b.db.headers

theorem Batch.Frame.refl (b : Batch)
    : Frame b b := ⟨rfl, rfl, rfl, rfl, rfl, rfl, rfl⟩

theorem Batch.Frame.trans (hab : Frame a b) (hbc : Frame b c)
    : Frame a c where
  committed := hbc.committed.trans hab.committed
  head := hbc.head.trans hab.head
  tail := hbc.tail.trans hab.tail
  headerHead := hbc.headerHead.trans hab.headerHead
  syncHead := hbc.syncHead.trans hab.syncHead
  blocks := hbc.blocks.trans hab.blocks
  headers := hbc.headers.trans hab.headers

theorem Batch.frame_saveOutputPos (b : Batch) (commit : Commitment) (pos : Nat)
    : Frame b (b.saveOutputPos commit pos) := ⟨rfl, rfl, rfl, rfl, rfl, rfl, rfl⟩

theorem Batch.frame_saveBlockSums (b : Batch) (h : Hash) (sums : BlockSums)
    : Frame b (b.saveBlockSums h sums) := ⟨rfl, rfl, rfl, rfl, rfl, rfl, rfl⟩

theorem Batch.frame_clearOutputPos (b : Batch)
    : Frame b b.clearOutputPos := ⟨rfl, rfl, rfl, rfl, rfl, rfl, rfl⟩

theorem Batch.frame_getBlockInputBitmap (env : Env) (b : Batch) (bh : Hash)
    : Frame b (b.getBlockInputBitmap env bh).2 := by
  unfold getBlockInputBitmap
  split
  . exact .refl b
  . split
    . exact ⟨rfl, rfl, rfl, rfl, rfl, rfl, rfl⟩
    . exact .refl b

theorem preserves_inputPosToRewind_go (env : Env) (base : Batch) (blockHeader : BlockHeader)
    (fuel : Nat) (current : BlockHeader) (bitmap : Bitmap)
    : Preserves base.Frame (inputPosToRewind.go env blockHeader fuel current bitmap) := by
  induction fuel generalizing current bitmap with
  | zero => exact .lift _
  | succ fuel ih =>
    unfold inputPosToRewind.go
    split
    . exact .pure _
    . apply Preserves.bind
      . intro batch hbatch
        exact hbatch.trans (batch.frame_getBlockInputBitmap env _)
      . intro _
        refine .bind (.query _) fun _ => ?_
        apply ih

theorem preserves_inputPosToRewind (env : Env) (base : Batch) (blockHeader headHeader : BlockHeader)
    : Preserves base.Frame (inputPosToRewind env blockHeader headHeader) := by
  intro batch hbatch
  unfold inputPosToRewind
  split
  . exact hbatch
  . exact preserves_inputPosToRewind_go env base _ _ _ _ batch hbatch

structure TxHashSet.Settled (t : TxHashSet) : Prop where
  headerPmmr : t.headerPmmr.Settled
  syncPmmr : t.syncPmmr.Settled
  outputPmmr : t.outputPmmr.Settled
  rproofPmmr : t.rproofPmmr.Settled
  kernelPmmr : t.kernelPmmr.Settled

structure TxHashSet.Same (t u : TxHashSet) : Prop where
  headerPmmr : t.headerPmmr.Same u.headerPmmr
  syncPmmr : t.syncPmmr.Same u.syncPmmr
  outputPmmr : t.outputPmmr.Same u.outputPmmr
  rproofPmmr : t.rproofPmmr.Same u.rproofPmmr
  kernelPmmr : t.kernelPmmr.Same u.kernelPmmr

theorem TxHashSet.Same.refl (t : TxHashSet)
    : Same t t := ⟨.refl _, .refl _, .refl _, .refl _, .refl _⟩

theorem TxHashSet.Same.trans (htu : Same t u) (huv : Same u v)
    : Same t v where
  headerPmmr := htu.headerPmmr.trans huv.headerPmmr
  syncPmmr := htu.syncPmmr.trans huv.syncPmmr
  outputPmmr := htu.outputPmmr.trans huv.outputPmmr
  rproofPmmr := htu.rproofPmmr.trans huv.rproofPmmr
  kernelPmmr := htu.kernelPmmr.trans huv.kernelPmmr

namespace HeaderExtension

-- a working copy of a header mountain range, one that will be discarded if that is forced
structure Pending (base : PMMR HeaderEntry) (forced : Bool) (ext : HeaderExtension) : Prop where
  pmmr : base.Pending ext.pmmr
  rollback : forced = true → ext.rollback = true

variable {base : PMMR HeaderEntry} {forced : Bool}

theorem preserves_applyHeader (env : Env) (header : BlockHeader)
    : Preserves (Pending base forced) (applyHeader env header) := by
  unfold applyHeader
  apply Preserves.bind
  . apply Preserves.mapErr
    apply Preserves.zoom
    intro ext hext
    exact ⟨PMMR.preserves_push env base header _ hext.pmmr, hext.rollback⟩
  . intro _
    apply Preserves.bind
    . apply Preserves.modify
      intro ext hext
      exact ⟨hext.pmmr, hext.rollback⟩
    . intro _
      exact .query _

theorem preserves_rewind (hbase : base.Settled) (header : BlockHeader)
    : Preserves (Pending base forced) (rewind header) := by
  apply Preserves.modify
  intro ext hext
  exact ⟨hext.pmmr.rewind hbase _ _, hext.rollback⟩

theorem preserves_validateRoot (env : Env) (header : BlockHeader)
    : Preserves (Pending base forced) (validateRoot env header) := by
  unfold validateRoot
  split
  . exact .pure ()
  . refine .bind (.query _) fun _ => ?_
    exact .lift _

end HeaderExtension

namespace Extension

/-!
A property of each part of an extension that the operations on that part preserve is preserved by
taking in a block.
-/

structure Each (H : PMMR HeaderEntry → Prop) (O : PMMR OutputIdentifier → Prop)
    (R : PMMR RangeProof → Prop) (K : PMMR TxKernel → Prop) (B : Batch → Prop) (ext : Extension)
    : Prop where
  headerPmmr : H ext.headerPmmr
  outputPmmr : O ext.outputPmmr
  rproofPmmr : R ext.rproofPmmr
  kernelPmmr : K ext.kernelPmmr
  batch : B ext.batch

structure Stable (H : PMMR HeaderEntry → Prop) (O : PMMR OutputIdentifier → Prop)
    (R : PMMR RangeProof → Prop) (K : PMMR TxKernel → Prop) (B : Batch → Prop) : Prop where
  headerPmmr : PMMR.Stable H
  outputPmmr : PMMR.Stable O
  rproofPmmr : PMMR.Stable R
  kernelPmmr : PMMR.Stable K
  saveOutputPos : ∀ batch commit pos, B batch → B (Batch.saveOutputPos batch commit pos)
  saveBlockSums : ∀ batch h sums, B batch → B (Batch.saveBlockSums batch h sums)

section

variable {H : PMMR HeaderEntry → Prop} {O : PMMR OutputIdentifier → Prop} {R : PMMR RangeProof → Prop}
  {K : PMMR TxKernel → Prop} {B : Batch → Prop}

theorem preserves_onHeader (hx : Preserves H x)
    : Preserves (Each H O R K B) (onHeader x) := by
  apply Preserves.mapErr
  apply Preserves.zoom
  intro ext hext
  exact ⟨hx _ hext.headerPmmr, hext.outputPmmr, hext.rproofPmmr, hext.kernelPmmr, hext.batch⟩

theorem preserves_onOutput
    (hx : Preserves O x)
    : Preserves (Each H O R K B) (onOutput x) := by
  apply Preserves.mapErr
  apply Preserves.zoom
  intro ext hext
  exact ⟨hext.headerPmmr, hx _ hext.outputPmmr, hext.rproofPmmr, hext.kernelPmmr, hext.batch⟩

theorem preserves_onRproof (hx : Preserves R x)
    : Preserves (Each H O R K B) (onRproof x) := by
  apply Preserves.mapErr
  apply Preserves.zoom
  intro ext hext
  exact ⟨hext.headerPmmr, hext.outputPmmr, hx _ hext.rproofPmmr, hext.kernelPmmr, hext.batch⟩

theorem preserves_onKernel (hx : Preserves K x)
    : Preserves (Each H O R K B) (onKernel x) := by
  apply Preserves.mapErr
  apply Preserves.zoom
  intro ext hext
  exact ⟨hext.headerPmmr, hext.outputPmmr, hext.rproofPmmr, hx _ hext.kernelPmmr, hext.batch⟩

theorem preserves_onBatch (hx : Preserves B x)
    : Preserves (Each H O R K B) (onBatch x) := by
  apply Preserves.zoom
  intro ext hext
  exact ⟨hext.headerPmmr, hext.outputPmmr, hext.rproofPmmr, hext.kernelPmmr, hx _ hext.batch⟩

theorem Each.setBatch {ext : Extension} {batch : Batch} (h : Each H O R K B ext) (hbatch : B batch)
    : Each H O R K B { ext with batch := batch } :=
  ⟨h.headerPmmr, h.outputPmmr, h.rproofPmmr, h.kernelPmmr, hbatch⟩

theorem preserves_setHeader (header : BlockHeader)
    : Preserves (Each H O R K B)
        (.modify fun ext => { ext with header := header } : Routine Extension ErrorKind Unit) := by
  apply Preserves.modify
  intro ext hext
  exact ⟨hext.headerPmmr, hext.outputPmmr, hext.rproofPmmr, hext.kernelPmmr, hext.batch⟩

theorem preserves_forceRollback
    : Preserves (Each H O R K B) forceRollback := by
  apply Preserves.modify
  intro ext hext
  exact ⟨hext.headerPmmr, hext.outputPmmr, hext.rproofPmmr, hext.kernelPmmr, hext.batch⟩

theorem Stable.preserves_applyOutput (h : Stable H O R K B) (env : Env) (out : Output)
    : Preserves (Each H O R K B) (applyOutput env out) := by
  unfold applyOutput
  refine .bind (.query _) fun _ => ?_
  refine .bind (preserves_onOutput (h.outputPmmr.push env out)) fun _ => ?_
  refine .bind (preserves_onRproof (h.rproofPmmr.push env out.proof)) fun _ => ?_
  refine .bind (.gets _) fun _ => ?_
  refine .bind (.lift _) fun _ => ?_
  refine .bind (.lift _) fun _ => ?_
  exact .pure _

theorem Stable.preserves_applyAndIndexOutput (h : Stable H O R K B) (env : Env) (out : Output)
    : Preserves (Each H O R K B) (applyAndIndexOutput env out) := by
  unfold applyAndIndexOutput
  refine .bind (h.preserves_applyOutput env out) fun pos => ?_
  apply Preserves.modify
  intro ext hext
  exact hext.setBatch (h.saveOutputPos _ out.commit pos hext.batch)

theorem Stable.preserves_applyInput (h : Stable H O R K B) (env : Env) (input : Input)
    : Preserves (Each H O R K B) (applyInput env input) := by
  unfold applyInput
  refine .bind (.query _) fun pos => ?_
  refine .bind (.query _) fun _ => ?_
  refine .bind (preserves_onOutput (h.outputPmmr.prune pos)) fun _ => ?_
  refine .bind (.lift _) fun _ => ?_
  refine .bind (preserves_onRproof (h.rproofPmmr.prune pos)) fun _ => ?_
  exact .pure _

theorem Stable.preserves_applyKernel (h : Stable H O R K B) (env : Env) (kernel : TxKernel)
    : Preserves (Each H O R K B) (applyKernel env kernel) := by
  unfold applyKernel
  refine .bind (preserves_onKernel (h.kernelPmmr.push env kernel)) fun _ => ?_
  exact .pure _

theorem Stable.preserves_applyBlock (h : Stable H O R K B) (env : Env) (b : Block)
    : Preserves (Each H O R K B) (applyBlock env b) := by
  unfold applyBlock applyHeader
  apply Preserves.bind
  . refine .bind (preserves_onHeader (h.headerPmmr.push env b.header)) fun _ => ?_
    exact .pure _
  . intro _
    refine .bind (.forEach fun out _ => h.preserves_applyAndIndexOutput env out) fun _ => ?_
    refine .bind (.forEach fun input _ => h.preserves_applyInput env input) fun _ => ?_
    refine .bind (.forEach fun kernel _ => h.preserves_applyKernel env kernel) fun _ => ?_
    exact preserves_setHeader b.header

theorem Stable.applyBlock
    (h : Stable H O R K B) (happly : Extension.applyBlock env b ext = (res, ext'))
    (hext : Each H O R K B ext)
    : Each H O R K B ext' := by
  have hpreserved := h.preserves_applyBlock env b ext hext
  rw [happly] at hpreserved
  exact hpreserved

end

abbrev Pending (st : ChainState) : Extension → Prop :=
  Each st.trees.headerPmmr.Pending st.trees.outputPmmr.Pending st.trees.rproofPmmr.Pending
    st.trees.kernelPmmr.Pending st.batch.Frame

variable {st : ChainState}

theorem stable_pending
    : Stable st.trees.headerPmmr.Pending st.trees.outputPmmr.Pending st.trees.rproofPmmr.Pending
        st.trees.kernelPmmr.Pending st.batch.Frame where
  headerPmmr := PMMR.stable_pending _
  outputPmmr := PMMR.stable_pending _
  rproofPmmr := PMMR.stable_pending _
  kernelPmmr := PMMR.stable_pending _
  saveOutputPos batch commit pos h := h.trans (batch.frame_saveOutputPos commit pos)
  saveBlockSums batch h sums hbatch := hbatch.trans (batch.frame_saveBlockSums h sums)

theorem Pending.new (hst : st.trees.Settled) (header : BlockHeader)
    : Pending st (.new st header) where
  headerPmmr := PMMRBackend.Pending.refl hst.headerPmmr
  outputPmmr := PMMRBackend.Pending.refl hst.outputPmmr
  rproofPmmr := PMMRBackend.Pending.refl hst.rproofPmmr
  kernelPmmr := PMMRBackend.Pending.refl hst.kernelPmmr
  batch := .refl _

theorem preserves_applyBlock (env : Env) (b : Block)
    : Preserves (Pending st) (applyBlock env b) := stable_pending.preserves_applyBlock env b

theorem preserves_rewind (hst : st.trees.Settled) (env : Env) (header : BlockHeader)
    : Preserves (Pending st) (rewind env header) := by
  unfold rewind
  refine .bind (.gets _) fun head => ?_
  refine .bind (preserves_onBatch (preserves_inputPosToRewind env _ header head)) fun rewindRmPos => ?_
  apply Preserves.bind
  . apply Preserves.modify
    intro ext hext
    exact ⟨hext.headerPmmr.rewind hst.headerPmmr _ _, hext.outputPmmr.rewind hst.outputPmmr _ _,
      hext.rproofPmmr.rewind hst.rproofPmmr _ _, hext.kernelPmmr.rewind hst.kernelPmmr _ _,
      hext.batch⟩
  . intro _
    exact preserves_setHeader header

theorem preserves_rebuildIndex
    : Preserves (Pending st) rebuildIndex := by
  apply Preserves.modify
  intro ext hext
  apply hext.setBatch
  have hclear := hext.batch.trans ext.batch.frame_clearOutputPos
  revert hclear
  generalize ext.batch.clearOutputPos = batch
  generalize Bitmap.iter ext.outputPmmr.backend.leafSet.bitmap = leafPos
  intro hbatch
  induction leafPos generalizing batch with
  | nil => exact hbatch
  | cons pos leafPos ih =>
    apply ih
    dsimp only
    split
    . next out _ => exact hbatch.trans (batch.frame_saveOutputPos out.commit pos)
    . exact hbatch

theorem Pending.settled_discard (hst : st.trees.Settled) (h : Pending st ext)
    : (ext.discard st.trees).Settled where
  headerPmmr := PMMR.settled_discard hst.headerPmmr h.headerPmmr
  syncPmmr := hst.syncPmmr
  outputPmmr := PMMR.settled_discard hst.outputPmmr h.outputPmmr
  rproofPmmr := PMMR.settled_discard hst.rproofPmmr h.rproofPmmr
  kernelPmmr := PMMR.settled_discard hst.kernelPmmr h.kernelPmmr

theorem Pending.same_discard (hst : st.trees.Settled) (h : Pending st ext)
    : (ext.discard st.trees).Same st.trees where
  headerPmmr := PMMR.same_discard hst.headerPmmr h.headerPmmr
  syncPmmr := .refl _
  outputPmmr := PMMR.same_discard hst.outputPmmr h.outputPmmr
  rproofPmmr := PMMR.same_discard hst.rproofPmmr h.rproofPmmr
  kernelPmmr := PMMR.same_discard hst.kernelPmmr h.kernelPmmr

theorem Pending.settled_sync (hst : st.trees.Settled) (h : Pending st ext)
    : (ext.sync st.trees).Settled where
  headerPmmr := PMMR.settled_sync hst.headerPmmr h.headerPmmr
  syncPmmr := hst.syncPmmr
  outputPmmr := PMMR.settled_sync hst.outputPmmr h.outputPmmr
  rproofPmmr := PMMR.settled_sync hst.rproofPmmr h.rproofPmmr
  kernelPmmr := PMMR.settled_sync hst.kernelPmmr h.kernelPmmr

end Extension

end Epic
