import Epic.Chain.TxHashSet.Discard

/-!
This module contains what the pipeline does to the chain state when it accepts a block, and that it
does nothing when it rejects one.
-/

namespace Epic
namespace Pipe

open Routine

theorem preserves_rewindAndApplyHeaderFork {base : PMMR HeaderEntry} (hbase : base.Settled)
    (env : Env) (header : BlockHeader)
    : Preserves (HeaderExtension.Pending base true) (rewindAndApplyHeaderFork env header) := by
  unfold rewindAndApplyHeaderFork
  refine .bind (.query _) fun fork => ?_
  refine .bind (HeaderExtension.preserves_rewind hbase _) fun _ => ?_
  apply Preserves.forEach
  intro h _
  unfold applyForkHeader
  refine .bind (.query _) fun header => ?_
  refine .bind (HeaderExtension.preserves_applyHeader env header) fun _ => ?_
  exact .pure _

theorem pending_extendHeader {base : PMMR HeaderEntry} (hbase : base.Settled) (env : Env)
    (header : BlockHeader) (isFork : Bool) (ext : HeaderExtension) (hext : base.Pending ext.pmmr)
    : HeaderExtension.Pending base true (extendHeader env header isFork ext).2 := by
  have hrest : Preserves (HeaderExtension.Pending base true) (do
      .onlyIf isFork (rewindAndApplyHeaderFork env header)
      HeaderExtension.validateRoot env header
      let _ ← HeaderExtension.applyHeader env header) := by
    refine .bind (.onlyIf (preserves_rewindAndApplyHeaderFork hbase env header)) fun _ => ?_
    refine .bind (HeaderExtension.preserves_validateRoot env header) fun _ => ?_
    refine .bind (HeaderExtension.preserves_applyHeader env header) fun _ => ?_
    exact .pure _
  exact hrest { ext with rollback := true } ⟨hext, fun _ => rfl⟩

section

variable {H : PMMR HeaderEntry → Prop} {O : PMMR OutputIdentifier → Prop} {R : PMMR RangeProof → Prop}
  {K : PMMR TxKernel → Prop} {B : Batch → Prop}

theorem preserves_applyInExtension (h : Extension.Stable H O R K B) (env : Env) (b : Block)
    : Preserves (Extension.Each H O R K B) (applyInExtension env b) := by
  unfold applyInExtension
  refine .bind (.query _) fun _ => ?_
  refine .bind (.query _) fun _ => ?_
  apply Preserves.bind
  . refine .bind (.query _) fun sums => ?_
    apply Preserves.modify
    intro ext hext
    exact hext.setBatch (h.saveBlockSums _ _ sums hext.batch)
  . intro _
    refine .bind (.query _) fun _ => ?_
    refine .bind (h.preserves_applyBlock env b) fun _ => ?_
    refine .bind (.query _) fun _ => ?_
    exact .query _

theorem preserves_applyForkBlocks (h : Extension.Stable H O R K B) (env : Env) (hashes : List Hash)
    : Preserves (Extension.Each H O R K B) (.forEach hashes (applyForkBlock env)) := by
  apply Preserves.forEach
  intro _ _
  refine .bind (.query _) fun fb => ?_
  exact preserves_applyInExtension h env fb

theorem preserves_applyOrRollback (h : Extension.Stable H O R K B) (env : Env) (b : Block)
    : Preserves (Extension.Each H O R K B) (do
        applyInExtension env b
        rollbackIfLessWork b) := by
  refine .bind (preserves_applyInExtension h env b) fun _ => ?_
  refine .bind (.query _) fun head => ?_
  exact .onlyIf Extension.preserves_forceRollback

end

theorem preserves_extendBlock {st : ChainState} (hst : st.trees.Settled) (env : Env) (b : Block)
    (isFork : Bool)
    : Preserves (Extension.Pending st) (extendBlock env b isFork) := by
  unfold extendBlock
  apply Preserves.bind
  . apply Preserves.onlyIf
    refine .bind (.query _) fun fork => ?_
    refine .bind (Extension.preserves_rewind hst env _) fun _ => ?_
    exact preserves_applyForkBlocks Extension.stable_pending env _
  . intro _
    exact preserves_applyOrRollback Extension.stable_pending env b

structure Extends (env : Env) (b : Block) (ext ext' : Extension) (sums : BlockSums) : Prop where
  utxo : UTXOView.validateBlock env ext.outputPmmr ext.batch b = .ok ()
  summed : newBlockSums env ext.batch b = .ok sums
  applied : Extension.applyBlock env b
      { ext with batch := ext.batch.saveBlockSums (b.header.hash env) sums }
    = (.ok (), ext')
  roots : Extension.validateRoots env ext' = (.ok (), ext')
  sizes : Extension.validateSizes ext' = (.ok (), ext')

theorem applyInExtension_eq_ok {env : Env} {b : Block} {ext ext' : Extension} {u : Unit}
    (h : applyInExtension env b ext = (.ok u, ext'))
    : ∃ sums, Extends env b ext ext' sums := by
  obtain ⟨⟨⟩, ext₁, hmaturity, h⟩ := bind_eq_ok.mp h
  simp only [verifyCoinbaseMaturity, query_eq_ok] at hmaturity
  obtain ⟨-, rfl⟩ := hmaturity
  obtain ⟨⟨⟩, ext₂, hutxo, h⟩ := bind_eq_ok.mp h
  simp only [validateUtxo, query_eq_ok] at hutxo
  obtain ⟨hutxo, rfl⟩ := hutxo
  obtain ⟨⟨⟩, ext₃, hverify, h⟩ := bind_eq_ok.mp h
  obtain ⟨sums, ext₄, hsums, hsave⟩ := bind_eq_ok.mp hverify
  rw [query_eq_ok] at hsums
  obtain ⟨hsums, rfl⟩ := hsums
  rw [modify_eq_ok] at hsave
  subst hsave
  obtain ⟨⟨⟩, ext₅, hroot, h⟩ := bind_eq_ok.mp h
  simp only [Extension.validateHeaderRoot, query_eq_ok] at hroot
  obtain ⟨-, rfl⟩ := hroot
  obtain ⟨⟨⟩, ext₆, happlied, h⟩ := bind_eq_ok.mp h
  obtain ⟨⟨⟩, ext₇, hroots, hsizes⟩ := bind_eq_ok.mp h
  have heq₇ : ext₆ = ext₇ := by
    simp only [Extension.validateRoots, query_eq_ok] at hroots
    exact hroots.2
  subst heq₇
  have heq : ext₆ = ext' := by
    simp only [Extension.validateSizes, query_eq_ok] at hsizes
    exact hsizes.2
  subst heq
  exact ⟨sums, hutxo, hsums, happlied, hroots, hsizes⟩

theorem rollbackIfLessWork_eq_ok {b : Block} {ext ext' : Extension} {u : Unit}
    (h : rollbackIfLessWork b ext = (.ok u, ext'))
    : ∃ head,
        ext.batch.db.head = some head
          ∧
        ext' = { ext with rollback := ext.rollback || !hasMoreWork b.header head } := by
  obtain ⟨head, ext₁, hhead, h⟩ := bind_eq_ok.mp h
  rw [query_eq_ok, Batch.head, Outcome.okOr_eq_ok] at hhead
  obtain ⟨hhead, rfl⟩ := hhead
  refine ⟨head, hhead, ?_⟩
  unfold onlyIf at h
  cases hmore : hasMoreWork b.header head with
  | true =>
    simp only [hmore, Bool.not_true, Bool.false_eq_true, ↓reduceIte, pure_apply, Prod.mk.injEq] at h
    rw [← h.2]
    simp
  | false =>
    simp only [hmore, Bool.not_false, ↓reduceIte, Extension.forceRollback, modify_eq_ok] at h
    rw [← h]
    simp

theorem extendBlock_next {env : Env} {b : Block} {ext ext' : Extension} {u : Unit}
    (h : extendBlock env b false ext = (.ok u, ext'))
    : ∃ ext₁ sums head,
        Extends env b ext ext₁ sums
          ∧
        ext₁.batch.db.head = some head
          ∧
        ext' = { ext₁ with rollback := ext₁.rollback || !hasMoreWork b.header head } := by
  obtain ⟨⟨⟩, ext₂, hfork, h⟩ := bind_eq_ok.mp h
  simp only [onlyIf, Bool.false_eq_true, ↓reduceIte, pure_apply, Prod.mk.injEq] at hfork
  obtain ⟨-, rfl⟩ := hfork
  obtain ⟨⟨⟩, ext₁, happly, hrollback⟩ := bind_eq_ok.mp h
  obtain ⟨sums, hextends⟩ := applyInExtension_eq_ok happly
  obtain ⟨head, hhead, heq⟩ := rollbackIfLessWork_eq_ok hrollback
  exact ⟨ext₁, sums, head, hextends, hhead, heq⟩

theorem close_eq_ok {α : Type} {st st' : ChainState} {res : Outcome ErrorKind α} {ext : Extension}
    {r : α}
    : ext.close st res = (.ok r, st')
        ↔
      res = .ok r
        ∧
      (if ext.rollback then { st with trees := ext.discard st.trees }
        else ⟨ext.sync st.trees, ext.batch⟩) = st' := by
  unfold Extension.close
  cases res with
  | ok r' =>
    dsimp only
    split <;> simp
  | err e => simp
  | panic => simp
  | hang => simp

theorem close_eq_err {α : Type} {st st' : ChainState} {res : Outcome ErrorKind α} {ext : Extension}
    {e : ErrorKind}
    : ext.close st res = (.err e, st')
        ↔
      res = .err e ∧ { st with trees := ext.discard st.trees } = st' := by
  unfold Extension.close
  cases res with
  | ok r' =>
    dsimp only
    split <;> simp
  | err e => simp
  | panic => simp
  | hang => simp

theorem extending_of_headHeader {α : Type} {inner : Routine Extension ErrorKind α} {st : ChainState}
    {header : BlockHeader} (h : st.batch.headHeader = .ok header)
    : extending inner st = (inner (.new st header)).2.close st (inner (.new st header)).1 := by
  unfold extending
  rw [bind_apply]
  rw [query_apply]
  rw [h]
  rfl

theorem extending_eq_ok {α : Type} {inner : Routine Extension ErrorKind α} {st st' : ChainState} {r : α}
    (h : extending inner st = (.ok r, st'))
    : ∃ header ext,
        st.batch.headHeader = .ok header
          ∧
        inner (.new st header) = (.ok r, ext)
          ∧
        (if ext.rollback then { st with trees := ext.discard st.trees }
          else ⟨ext.sync st.trees, ext.batch⟩) = st' := by
  obtain ⟨header, st₁, hheader, -⟩ := bind_eq_ok.mp h
  rw [query_eq_ok] at hheader
  rw [extending_of_headHeader hheader.1] at h
  rw [close_eq_ok] at h
  exact ⟨header, (inner (.new st header)).2, hheader.1, Prod.ext h.1 rfl, h.2⟩

-- the header mountain range is left as it was, the others are not touched
structure HeaderUnseen (st st' : ChainState) : Prop where
  batch : st'.batch = st.batch
  settled : st'.trees.headerPmmr.Settled
  same : st'.trees.headerPmmr.Same st.trees.headerPmmr
  trees : st'.trees = { st.trees with headerPmmr := st'.trees.headerPmmr }
  restored : st'.trees.headerPmmr = st.trees.headerPmmr
    ∨ ∃ p, st.trees.headerPmmr.Pending p ∧ st'.trees.headerPmmr = PMMR.discard st.trees.headerPmmr p

theorem HeaderUnseen.refl {st : ChainState} (hst : st.trees.Settled)
    : HeaderUnseen st st := ⟨rfl, hst.headerPmmr, .refl _, rfl, .inl rfl⟩

theorem HeaderUnseen.settled_trees {st st' : ChainState} (h : HeaderUnseen st st')
    (hst : st.trees.Settled)
    : st'.trees.Settled := by
  have hsettled := h.settled
  rw [h.trees]
  exact ⟨hsettled, hst.syncPmmr, hst.outputPmmr, hst.rproofPmmr, hst.kernelPmmr⟩

theorem HeaderUnseen.same_trees {st st' : ChainState} (h : HeaderUnseen st st')
    : st'.trees.Same st.trees := by
  have hsame := h.same
  rw [h.trees]
  exact ⟨hsame, .refl _, .refl _, .refl _, .refl _⟩

theorem headerUnseen_close {α : Type} {st : ChainState} {ext : HeaderExtension}
    (hst : st.trees.Settled) (hext : HeaderExtension.Pending st.trees.headerPmmr true ext)
    (res : Outcome ErrorKind α)
    : HeaderUnseen st
        (ext.close (·.headerPmmr) (fun p t => { t with headerPmmr := p }) st res).2 := by
  have hunseen : HeaderUnseen st { st with
      trees := { st.trees with headerPmmr := PMMR.discard st.trees.headerPmmr ext.pmmr } } :=
    ⟨rfl, PMMR.settled_discard hst.headerPmmr hext.pmmr,
      PMMR.same_discard hst.headerPmmr hext.pmmr, rfl, .inr ⟨ext.pmmr, hext.pmmr, rfl⟩⟩
  unfold HeaderExtension.close
  cases res with
  | ok r =>
    dsimp only
    rw [if_pos (hext.rollback rfl)]
    exact hunseen
  | err e => exact hunseen
  | panic => exact hunseen
  | hang => exact hunseen

theorem headerUnseen_headerExtending {st : ChainState} (hst : st.trees.Settled) (env : Env)
    (header : BlockHeader) (isFork : Bool)
    : HeaderUnseen st (headerExtending (extendHeader env header isFork) st).2 := by
  unfold headerExtending extendingHeaders
  rw [bind_apply]
  rw [query_apply]
  rcases (st.batch.head >>= fun tip => st.batch.getBlockHeader tip.lastBlockH)
    with (headHeader | e | _ | _)
  . have hpending := pending_extendHeader hst.headerPmmr env header isFork
      ⟨headHeader, st.trees.headerPmmr, false, st.batch⟩ (PMMRBackend.Pending.refl hst.headerPmmr)
    exact headerUnseen_close hst hpending _
  . exact .refl hst
  . exact .refl hst
  . exact .refl hst

/-!
The batch after the header of a block is processed, and after the block is added.
-/

def betterTip (env : Env) (tip : Option Tip) (header : BlockHeader) : Option Tip :=
  match tip with
  | some old => if hasMoreWork header old then some (.fromHeader env header) else some old
  | none => none

theorem exists_betterTip (env : Env) {tip : Option Tip} (header : BlockHeader) {old : Tip}
    (h : tip = some old)
    : ∃ new, betterTip env tip header = some new := by
  subst h
  unfold betterTip
  dsimp only
  split
  . exact ⟨_, rfl⟩
  . exact ⟨_, rfl⟩

def headerBatch (env : Env) (batch : Batch) (header : BlockHeader) : Batch :=
  let saved := batch.saveBlockHeader env header
  { saved with db := { saved.db with headerHead := betterTip env batch.db.headerHead header } }

def blockBatch (env : Env) (batch : Batch) (b : Block) : Batch :=
  let saved := batch.saveBlock env b
  { saved with db := { saved.db with
    tail := some (batch.db.tail.getD (.fromHeader env b.header))
    head := betterTip env batch.db.head b.header } }

theorem updateTip_eq_ok {env : Env} {header : BlockHeader} {get : Batch → Outcome ErrorKind Tip}
    {save : Batch → Tip → Batch} {st st' : ChainState} {tip : Option Tip}
    (h : updateTip env header get save st = (.ok tip, st'))
    : ∃ old,
        get st.batch = .ok old
          ∧
        tip = (if hasMoreWork header old then some (.fromHeader env header) else none)
          ∧
        st' = (if hasMoreWork header old then
          { st with batch := save st.batch (.fromHeader env header) } else st) := by
  obtain ⟨old, hold, h⟩ := query_bind_eq_ok.mp h
  refine ⟨old, hold, ?_⟩
  split at h
  . next hmore =>
    obtain ⟨⟨⟩, st₂, hmodify, hpure⟩ := bind_eq_ok.mp h
    rw [modify_eq_ok] at hmodify
    simp only [pure_apply, Prod.mk.injEq, Outcome.ok.injEq] at hpure
    rw [if_pos hmore, if_pos hmore]
    exact ⟨hpure.1.symm, hpure.2.symm.trans hmodify.symm⟩
  . next hmore =>
    simp only [pure_apply, Prod.mk.injEq, Outcome.ok.injEq] at h
    rw [if_neg hmore, if_neg hmore]
    exact ⟨h.1.symm, h.2.symm⟩

theorem updateHeaderHead_eq_ok {env : Env} {header : BlockHeader} {st st' : ChainState}
    {tip : Option Tip} (h : updateHeaderHead env header st = (.ok tip, st'))
    : (∃ old, st.batch.db.headerHead = some old)
        ∧
      st' = { st with batch := { st.batch with
        db := { st.batch.db with headerHead := betterTip env st.batch.db.headerHead header } } } := by
  obtain ⟨old, hold, -, rfl⟩ := updateTip_eq_ok h
  have hold : st.batch.db.headerHead = some old := Outcome.okOr_eq_ok.mp hold
  refine ⟨⟨old, hold⟩, ?_⟩
  unfold betterTip
  rw [hold]
  dsimp only
  split
  . rfl
  . rw [← hold]

theorem updateHead_eq_ok {env : Env} {b : Block} {st st' : ChainState} {tip : Option Tip}
    (h : updateHead env b st = (.ok tip, st'))
    : ∃ old,
        st.batch.db.head = some old
          ∧
        tip = (if hasMoreWork b.header old then some (.fromHeader env b.header) else none)
          ∧
        st' = { st with batch := { st.batch with
          db := { st.batch.db with head := betterTip env st.batch.db.head b.header } } } := by
  obtain ⟨old, hold, htip, rfl⟩ := updateTip_eq_ok h
  have hold : st.batch.db.head = some old := Outcome.okOr_eq_ok.mp hold
  refine ⟨old, hold, htip, ?_⟩
  unfold betterTip
  rw [hold]
  dsimp only
  split
  . rfl
  . rw [← hold]

theorem processHeaderForBlock_eq_ok {env : Env} {ctx : Ctx} {header : BlockHeader} {isFork : Bool}
    {st st' : ChainState} {u : Unit} (hst : st.trees.Settled)
    (h : processHeaderForBlock env ctx header isFork st = (.ok u, st'))
    : ∃ mid,
        HeaderUnseen st mid
          ∧
        validateHeader env ctx st.batch.db.headers header = .ok ()
          ∧
        (∃ old, st.batch.db.headerHead = some old)
          ∧
        st' = ⟨mid.trees, headerBatch env st.batch header⟩ := by
  obtain ⟨⟨⟩, mid, hextending, h⟩ := bind_eq_ok.mp h
  have hunseen := headerUnseen_headerExtending hst env header isFork
  rw [hextending] at hunseen
  obtain ⟨⟨⟩, st₂, hvalid, h⟩ := bind_eq_ok.mp h
  simp only [validateHeaderIn, query_apply, Prod.mk.injEq] at hvalid
  obtain ⟨hvalid, rfl⟩ := hvalid
  obtain ⟨⟨⟩, st₃, hadd, h⟩ := bind_eq_ok.mp h
  simp only [addBlockHeader, modify_apply, Prod.mk.injEq] at hadd
  obtain ⟨tip, st₄, hupdate, h⟩ := bind_eq_ok.mp h
  obtain ⟨⟨old, hold⟩, heq⟩ := updateHeaderHead_eq_ok hupdate
  simp only [pure_apply, Prod.mk.injEq] at h
  rw [hunseen.batch] at hvalid
  refine ⟨mid, hunseen, hvalid, ?_, ?_⟩
  . rw [← hadd.2] at hold
    rw [hunseen.batch] at hold
    exact ⟨old, hold⟩
  . rw [← h.2, heq, ← hadd.2, hunseen.batch]
    rfl

structure Accepted (env : Env) (ctx : Ctx) (orphans : OrphanBlockPool) (b : Block)
    (st st' : ChainState) (tip : Option Tip) (isFork : Bool) (mid : TxHashSet)
    (headHeader : BlockHeader) (ext : Extension) : Prop where
  known : checkKnown env orphans st.batch b = .ok ()
  orphan : checkOrphan env st.batch b = .ok isFork
  headerHead : ∃ old, st.batch.db.headerHead = some old
  unseen : HeaderUnseen st ⟨mid, st.batch⟩
  valid : validateHeader env ctx st.batch.db.headers b.header = .ok ()
  validBlock : validateBlock env b ⟨mid, headerBatch env st.batch b.header⟩
    = (.ok (), ⟨mid, headerBatch env st.batch b.header⟩)
  headFound : (headerBatch env st.batch b.header).headHeader = .ok headHeader
  extended : extendBlock env b isFork (.new ⟨mid, headerBatch env st.batch b.header⟩ headHeader)
    = (.ok (), ext)
  head : ∃ old,
    st.batch.db.head = some old
      ∧
    tip = (if hasMoreWork b.header old then some (.fromHeader env b.header) else none)
  state : st' =
    if ext.rollback then
      ⟨ext.discard mid, blockBatch env (headerBatch env st.batch b.header) b⟩
    else
      ⟨ext.sync mid, blockBatch env ext.batch b⟩

def finishBlock (env : Env) (b : Block) : Routine ChainState ErrorKind (Option Tip) := do
  addBlock env b
  updateBodyTail env b.header
  updateHead env b

theorem finishBlock_eq_ok {env : Env} {b : Block} {st st' : ChainState} {tip : Option Tip}
    (h : finishBlock env b st = (.ok tip, st'))
    : (∃ old,
        st.batch.db.head = some old
          ∧
        tip = (if hasMoreWork b.header old then some (.fromHeader env b.header) else none))
        ∧
      st' = ⟨st.trees, blockBatch env st.batch b⟩ := by
  obtain ⟨⟨⟩, st₁, hadd, h⟩ := bind_eq_ok.mp h
  simp only [addBlock, modify_apply, Prod.mk.injEq] at hadd
  obtain ⟨⟨⟩, st₂, htail, h⟩ := bind_eq_ok.mp h
  simp only [updateBodyTail, modify_apply, Prod.mk.injEq] at htail
  obtain ⟨old, hold, htip, hst'⟩ := updateHead_eq_ok h
  have hst₂ : st₂.batch = { st₁.batch with
      db := { st₁.batch.db with tail := some (st₁.batch.db.tail.getD (.fromHeader env b.header)) } }
      ∧ st₂.trees = st₁.trees := by
    rw [← htail.2]
    split
    . next hnone =>
      rw [Option.isNone_iff_eq_none] at hnone
      simp [Batch.saveBodyTail, hnone]
    . next hsome =>
      obtain ⟨tail, htail⟩ := Option.ne_none_iff_exists'.mp (by simpa using hsome)
      simp only [htail, Option.getD_some, and_true]
      rw [← htail]
  refine ⟨⟨old, ?_, htip⟩, ?_⟩
  . rw [hst₂.1, ← hadd.2] at hold
    exact hold
  . rw [hst', hst₂.1, hst₂.2, ← hadd.2]
    rfl

theorem processBlock_eq_ok {env : Env} {ctx : Ctx} {orphans : OrphanBlockPool} {b : Block}
    {st st' : ChainState} {tip : Option Tip} (hst : st.trees.Settled)
    (h : processBlock env ctx orphans b st = (.ok tip, st'))
    : ∃ isFork mid headHeader ext,
        Accepted env ctx orphans b st st' tip isFork mid headHeader ext := by
  obtain ⟨⟨⟩, st₁, hknown, h⟩ := bind_eq_ok.mp h
  simp only [query_apply, Prod.mk.injEq] at hknown
  obtain ⟨hknown, rfl⟩ := hknown
  obtain ⟨isFork, st₁, horphan, h⟩ := bind_eq_ok.mp h
  simp only [query_apply, Prod.mk.injEq] at horphan
  obtain ⟨horphan, rfl⟩ := horphan
  obtain ⟨⟨⟩, st₁, hheader, h⟩ := bind_eq_ok.mp h
  obtain ⟨mid, hunseen, hvalid, hheaderHead, rfl⟩ := processHeaderForBlock_eq_ok hst hheader
  obtain ⟨⟨⟩, st₂, hblock, h⟩ := bind_eq_ok.mp h
  have hst₂ : st₂ = ⟨mid.trees, headerBatch env st.batch b.header⟩ := by
    simp only [validateBlock, query_apply, Prod.mk.injEq] at hblock
    exact hblock.2.symm
  subst hst₂
  obtain ⟨⟨⟩, st₃, hextending, h⟩ := bind_eq_ok.mp h
  obtain ⟨headHeader, ext, hhead, hextend, hst₃⟩ := extending_eq_ok hextending
  obtain ⟨⟨old, hold, htip⟩, hst'⟩ := finishBlock_eq_ok h
  have hsettled : (ChainState.mk mid.trees (headerBatch env st.batch b.header)).trees.Settled :=
    hunseen.settled_trees hst
  have hpending := preserves_extendBlock hsettled env b isFork _ (.new hsettled headHeader)
  rw [hextend] at hpending
  refine ⟨isFork, mid.trees, headHeader, ext, hknown, horphan, hheaderHead, ?_, hvalid, hblock, hhead,
    hextend, ⟨old, ?_, htip⟩, ?_⟩
  . have hbatch := hunseen.batch
    cases mid
    dsimp only at hbatch
    subst hbatch
    exact hunseen
  . rw [← hold, ← hst₃]
    split
    . rfl
    . exact hpending.batch.head.symm
  . rw [hst', ← hst₃]
    split <;> rfl

theorem Accepted.frame {env : Env} {ctx : Ctx} {orphans : OrphanBlockPool} {b : Block}
    {st st' : ChainState} {tip : Option Tip} {isFork : Bool} {mid : TxHashSet}
    {headHeader : BlockHeader} {ext : Extension} (hst : st.trees.Settled)
    (h : Accepted env ctx orphans b st st' tip isFork mid headHeader ext)
    : (headerBatch env st.batch b.header).Frame ext.batch := by
  have hsettled : (ChainState.mk mid (headerBatch env st.batch b.header)).trees.Settled :=
    h.unseen.settled_trees hst
  have hpending := preserves_extendBlock hsettled env b isFork _ (.new hsettled headHeader)
  rw [h.extended] at hpending
  exact hpending.batch

theorem Accepted.tips {env : Env} {ctx : Ctx} {orphans : OrphanBlockPool} {b : Block}
    {st st' : ChainState} {tip : Option Tip} {isFork : Bool} {mid : TxHashSet}
    {headHeader : BlockHeader} {ext : Extension} (hst : st.trees.Settled)
    (h : Accepted env ctx orphans b st st' tip isFork mid headHeader ext)
    : st'.batch.db.headers = st.batch.db.headers.saveBlockHeader env b.header
        ∧
      st'.batch.db.head = betterTip env st.batch.db.head b.header
        ∧
      st'.batch.db.headerHead = betterTip env st.batch.db.headerHead b.header
        ∧
      st'.batch.db.syncHead = st.batch.db.syncHead := by
  have hframe := h.frame hst
  rw [h.state]
  split
  . exact ⟨rfl, rfl, rfl, rfl⟩
  . refine ⟨hframe.headers, ?_, hframe.headerHead, hframe.syncHead⟩
    exact congrArg (betterTip env · b.header) hframe.head

theorem headerUnseen_processHeaderForBlock {st : ChainState} (hst : st.trees.Settled) (env : Env)
    (ctx : Ctx) (header : BlockHeader) (isFork : Bool)
    : HeaderUnseen st ⟨(processHeaderForBlock env ctx header isFork st).2.trees, st.batch⟩ := by
  have hunseen := headerUnseen_headerExtending hst env header isFork
  have hstart : HeaderUnseen st
      ⟨(headerExtending (extendHeader env header isFork) st).2.trees, st.batch⟩ :=
    ⟨rfl, hunseen.settled, hunseen.same, hunseen.trees, hunseen.restored⟩
  have hrest : Preserves (fun st' => HeaderUnseen st ⟨st'.trees, st.batch⟩) (do
      validateHeaderIn env ctx header
      addBlockHeader env header
      let _ ← updateHeaderHead env header) := by
    refine .bind (.query _) fun _ => ?_
    refine .bind (.modify fun st' h => h) fun _ => ?_
    refine .bind (.bind (.query _) fun headerHead => ?_) fun _ => .pure _
    split
    . exact .bind (.modify fun st' h => h) fun _ => .pure _
    . exact .pure _
  refine snd_bind (P := fun st' => HeaderUnseen st ⟨st'.trees, st.batch⟩) (s := st)
    (x := headerExtending (extendHeader env header isFork)) hstart ?_
  intro _ st₁ hst₁
  rw [hst₁] at hstart
  exact hrest st₁ hstart

theorem finishBlock_ne_err {env : Env} {b : Block} {st st' : ChainState} {e : ErrorKind} {old : Tip}
    (hhead : st.batch.db.head = some old)
    : finishBlock env b st ≠ (.err e, st') := by
  intro h
  rcases bind_eq_err.mp h with hadd | ⟨⟨⟩, st₁, hadd, h⟩
  . simp [addBlock] at hadd
  . rcases bind_eq_err.mp h with htail | ⟨⟨⟩, st₂, htail, h⟩
    . simp [updateBodyTail] at htail
    . have hhead₂ : st₂.batch.db.head = some old := by
        simp only [addBlock, modify_eq_ok] at hadd
        simp only [updateBodyTail, modify_eq_ok] at htail
        rw [← htail, ← hadd]
        split <;> exact hhead
      rcases bind_eq_err.mp h with hquery | ⟨head, st₃, hquery, h⟩
      . simp [Batch.head, hhead₂, Outcome.okOr] at hquery
      . split at h
        . rcases bind_eq_err.mp h with hmodify | ⟨⟨⟩, st₄, hmodify, h⟩
          . simp at hmodify
          . simp at h
        . simp at h

structure Refused (env : Env) (ctx : Ctx) (orphans : OrphanBlockPool) (b : Block)
    (st st' : ChainState) (isFork : Bool) (mid : TxHashSet) (headHeader : BlockHeader)
    (ext : Extension) : Prop where
  known : checkKnown env orphans st.batch b = .ok ()
  orphan : checkOrphan env st.batch b = .ok isFork
  unseen : HeaderUnseen st ⟨mid, st.batch⟩
  valid : validateHeader env ctx st.batch.db.headers b.header = .ok ()
  headFound : (headerBatch env st.batch b.header).headHeader = .ok headHeader
  extended : (extendBlock env b isFork
    (.new ⟨mid, headerBatch env st.batch b.header⟩ headHeader)).2 = ext
  trees : st'.trees = ext.discard mid

theorem processBlock_eq_err {env : Env} {ctx : Ctx} {orphans : OrphanBlockPool} {b : Block}
    {st st' : ChainState} {e : ErrorKind} {old : Tip} (hst : st.trees.Settled)
    (hhead : st.batch.db.head = some old)
    (h : processBlock env ctx orphans b st = (.err e, st'))
    : HeaderUnseen st ⟨st'.trees, st.batch⟩
        ∨
      ∃ isFork mid headHeader ext, Refused env ctx orphans b st st' isFork mid headHeader ext := by
  rcases bind_eq_err.mp h with hknown | ⟨⟨⟩, st₁, hknown, h⟩
  . simp only [query_apply, Prod.mk.injEq] at hknown
    rw [← hknown.2]
    exact .inl (.refl hst)
  simp only [query_eq_ok] at hknown
  rw [← hknown.2] at h
  rcases bind_eq_err.mp h with horphan | ⟨isFork, st₁, horphan, h⟩
  . simp only [query_apply, Prod.mk.injEq] at horphan
    rw [← horphan.2]
    exact .inl (.refl hst)
  simp only [query_eq_ok] at horphan
  rw [← horphan.2] at h
  have hprocess := headerUnseen_processHeaderForBlock hst env ctx b.header isFork
  rcases bind_eq_err.mp h with hheader | ⟨⟨⟩, st₁, hheader, h⟩
  . rw [hheader] at hprocess
    exact .inl hprocess
  rw [hheader] at hprocess
  obtain ⟨mid, hunseen, hvalid, -, hst₁⟩ := processHeaderForBlock_eq_ok hst hheader
  rcases bind_eq_err.mp h with hblock | ⟨⟨⟩, st₂, hblock, h⟩
  . simp only [validateBlock, query_apply, Prod.mk.injEq] at hblock
    rw [← hblock.2]
    exact .inl hprocess
  simp only [validateBlock, query_eq_ok] at hblock
  rw [← hblock.2, hst₁] at h
  rw [hst₁] at hprocess
  rcases bind_eq_err.mp h with hextending | ⟨⟨⟩, st₃, hextending, h⟩
  . rcases bind_eq_err.mp hextending with hquery | ⟨headHeader, st₂, hheadHeader, -⟩
    . simp only [query_apply, Prod.mk.injEq] at hquery
      rw [← hquery.2]
      exact .inl hprocess
    . rw [query_eq_ok] at hheadHeader
      rw [extending_of_headHeader hheadHeader.1, close_eq_err] at hextending
      refine .inr ⟨isFork, mid.trees, headHeader, _, hknown.1, horphan.1, hprocess, hvalid,
        hheadHeader.1, rfl, ?_⟩
      rw [← hextending.2]
  obtain ⟨headHeader, ext, -, hrun, hst₃⟩ := extending_eq_ok hextending
  have hsettled : (ChainState.mk mid.trees (headerBatch env st.batch b.header)).trees.Settled :=
    hprocess.settled_trees hst
  have hpending := preserves_extendBlock hsettled env b isFork _ (.new hsettled headHeader)
  rw [hrun] at hpending
  have hhead₃ : st₃.batch.db.head = some old := by
    rw [← hst₃]
    split
    . exact hhead
    . rw [← hhead]
      exact hpending.batch.head
  exact absurd h (finishBlock_ne_err hhead₃)

theorem Refused.pending {env : Env} {ctx : Ctx} {orphans : OrphanBlockPool} {b : Block}
    {st st' : ChainState} {isFork : Bool} {mid : TxHashSet} {headHeader : BlockHeader}
    {ext : Extension} (hst : st.trees.Settled)
    (h : Refused env ctx orphans b st st' isFork mid headHeader ext)
    : Extension.Pending ⟨mid, headerBatch env st.batch b.header⟩ ext := by
  have hsettled : (ChainState.mk mid (headerBatch env st.batch b.header)).trees.Settled :=
    h.unseen.settled_trees hst
  have hpending := preserves_extendBlock hsettled env b isFork _ (.new hsettled headHeader)
  rw [h.extended] at hpending
  exact hpending

structure Unseen (st st' : ChainState) : Prop where
  settled : st'.trees.Settled
  same : st'.trees.Same st.trees

theorem unseen_processBlock {env : Env} {ctx : Ctx} {orphans : OrphanBlockPool} {b : Block}
    {st st' : ChainState} {e : ErrorKind} {old : Tip} (hst : st.trees.Settled)
    (hhead : st.batch.db.head = some old)
    (h : processBlock env ctx orphans b st = (.err e, st'))
    : Unseen st st' := by
  rcases processBlock_eq_err hst hhead h with hunseen | ⟨isFork, mid, headHeader, ext, hrefused⟩
  . exact ⟨hunseen.settled_trees hst, hunseen.same_trees⟩
  . have hsettled : (ChainState.mk mid (headerBatch env st.batch b.header)).trees.Settled :=
      hrefused.unseen.settled_trees hst
    have hpending := hrefused.pending hst
    constructor
    . rw [hrefused.trees]
      exact hpending.settled_discard hsettled
    . rw [hrefused.trees]
      exact (hpending.same_discard hsettled).trans hrefused.unseen.same_trees

end Pipe
end Epic
