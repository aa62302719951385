import Epic.Chain.Bitmaps
import Epic.Chain.TxHashSet.Unspent

/-!
This module contains the leaf sets of the outputs and of the range proofs while blocks are taken in: they
are one and the same, and up to the end of the branch they are the positions of the unspent outputs.
-/

namespace Epic

open Routine Pmmr

-- nothing but leaves is added, to both or to none
structure Paired (outputPmmr : PMMR OutputIdentifier) (rproofPmmr : PMMR RangeProof) : Prop where
  leaves : ∀ pos ∈ outputPmmr.backend.leafSet.bitmap, ∃ n, pos = leafPos n
  same : rproofPmmr.backend.leafSet.bitmap = outputPmmr.backend.leafSet.bitmap
  rproofPruned : rproofPmmr.backend.prunable = true

namespace Paired

variable {env : Env} {outputPmmr : PMMR OutputIdentifier} {rproofPmmr : PMMR RangeProof}
  {ext ext' : Extension}

theorem new
    : Paired (.new true) (.new true) where
  leaves := by simp [PMMR.new, PMMRBackend.new, LeafSet.empty]
  same := rfl
  rproofPruned := rfl

theorem sync (h : Paired outputPmmr rproofPmmr)
    : Paired outputPmmr.sync rproofPmmr.sync := by
  refine ⟨?_, ?_, h.rproofPruned⟩
  . rw [PMMR.bitmap_sync]
    exact h.leaves
  . rw [PMMR.bitmap_sync, PMMR.bitmap_sync]
    exact h.same

theorem rewind (h : Paired outputPmmr rproofPmmr)
    (hprunable : outputPmmr.backend.prunable = true) (hrm : ∀ pos ∈ rewindRmPos, ∃ n, pos = leafPos n)
    : Paired (outputPmmr.rewind position rewindRmPos) (rproofPmmr.rewind position rewindRmPos) := by
  refine ⟨?_, ?_, h.rproofPruned⟩
  . intro pos hpos
    rw [PMMR.bitmap_rewind hprunable, LeafSet.mem_rewound] at hpos
    rcases hpos with ⟨hpos, -⟩ | hpos
    . exact h.leaves pos hpos
    . exact hrm pos hpos
  . rw [PMMR.bitmap_rewind hprunable, PMMR.bitmap_rewind h.rproofPruned, LeafSet.rewound, h.same]
    rfl

theorem create (h : Paired ext.outputPmmr ext.rproofPmmr)
    (hholds : Extension.HoldsOutputs env outputs headerPmmr kernelPmmr ext)
    (hcreates : Extension.Creates env out ext ext')
    : Paired ext'.outputPmmr ext'.rproofPmmr := by
  obtain ⟨pos, hpush, -⟩ := hcreates.pushed
  obtain ⟨rpos, hproof⟩ := hcreates.proved
  obtain ⟨-, hpushed, -⟩ := hholds.output.push_leavesOf hpush
  obtain ⟨-, hrpushed, -⟩ := hholds.rproof.push_leavesOf hproof
  have houtput := hpushed.leafSet
  have hrproof := hrpushed.leafSet
  rw [if_pos hholds.outputPruned, PMMR.length_leavesOf] at houtput
  rw [if_pos h.rproofPruned, PMMR.length_leavesOf, List.length_map] at hrproof
  refine ⟨?_, ?_, hrpushed.prunable.trans h.rproofPruned⟩
  . rw [houtput]
    intro pos hpos
    rcases Finset.mem_insert.mp hpos with rfl | hpos
    . exact ⟨_, rfl⟩
    . exact h.leaves pos hpos
  . rw [houtput, hrproof, LeafSet.add, LeafSet.add, h.same]

theorem spend (h : Paired ext.outputPmmr ext.rproofPmmr)
    (hholds : Extension.HoldsOutputs env outputs headerPmmr kernelPmmr ext)
    (hspends : Extension.Spends env input ext ext')
    : Paired ext'.outputPmmr ext'.rproofPmmr := by
  obtain ⟨pos, hpos, -, hprune⟩ := hspends.pruned
  obtain ⟨rpos, pruned, hrpos, hproof⟩ := hspends.proved
  rw [hpos, Option.some.injEq] at hrpos
  subst hrpos
  obtain ⟨n, rfl, hpruned⟩ := hholds.output.prune hprune
  have hunspent : leafPos n ∈ ext.rproofPmmr.backend.leafSet.bitmap := by
    rw [h.same]
    exact hpruned.unspent
  have hlt := hpruned.lt
  rw [PMMR.length_leavesOf] at hlt
  rw [hholds.rproof.prune_ok h.rproofPruned hunspent (by simpa using hlt), Prod.mk.injEq] at hproof
  rw [hpruned.state, ← hproof.2]
  refine ⟨?_, ?_, h.rproofPruned⟩
  . intro pos hpos
    exact h.leaves pos (Finset.mem_of_mem_erase hpos)
  . change ext.rproofPmmr.backend.leafSet.bitmap.erase (leafPos n) = _
    rw [h.same]
    rfl

theorem applyBlock
    (h : Paired ext.outputPmmr ext.rproofPmmr) (hholds : ext.Holds env branch)
    (happly : Extension.applyBlock env b ext = (.ok u, ext'))
    : Paired ext'.outputPmmr ext'.rproofPmmr := by
  obtain ⟨mid, happlies⟩ := Extension.applies_applyBlock happly
  obtain ⟨pos, p, -, houtputs⟩ := happlies.outputs
  obtain ⟨last, hinputs, hkeeps⟩ := happlies.inputs
  have hmid : Extension.HoldsOutputs env (outputsOf branch ++ b.body.outputs) p ext.kernelPmmr mid
      ∧ Paired mid.outputPmmr mid.rproofPmmr := by
    apply forEach_eq_ok
      (fun done ext₁ => Extension.HoldsOutputs env (outputsOf branch ++ done) p ext.kernelPmmr ext₁
        ∧ Paired ext₁.outputPmmr ext₁.rproofPmmr) _ _ houtputs
    . rw [List.append_nil]
      exact ⟨⟨hholds.output, hholds.rproof, hholds.outputPruned, rfl, rfl⟩, h⟩
    . rintro done out ext₁ ext₂ - ⟨hdone, hpaired⟩ hout
      have hcreates := Extension.creates_applyAndIndexOutput hout
      rw [← List.append_assoc]
      exact ⟨hdone.create hcreates, hpaired.create hdone hcreates⟩
  have hlast : Extension.HoldsOutputs env (outputsOf branch ++ b.body.outputs) p ext.kernelPmmr last
      ∧ Paired last.outputPmmr last.rproofPmmr := by
    apply forEach_eq_ok
      (fun _ ext₁ => Extension.HoldsOutputs env (outputsOf branch ++ b.body.outputs) p ext.kernelPmmr ext₁
        ∧ Paired ext₁.outputPmmr ext₁.rproofPmmr) hmid _ hinputs
    rintro done input ext₁ ext₂ - ⟨hdone, hpaired⟩ hinput
    have hspends := Extension.spends_applyInput hinput
    exact ⟨hdone.spend hspends, hpaired.spend hdone hspends⟩
  rw [hkeeps.outputPmmr, hkeeps.rproofPmmr]
  exact hlast.2

end Paired

structure LeafSets (branch : List Block) (outputPmmr : PMMR OutputIdentifier)
    (rproofPmmr : PMMR RangeProof) : Prop where
  unspent : outputPmmr.Unspent branch
  paired : Paired outputPmmr rproofPmmr

theorem LeafSets.sync (h : LeafSets branch outputPmmr rproofPmmr)
    : LeafSets branch outputPmmr.sync rproofPmmr.sync := ⟨h.unspent.sync, h.paired.sync⟩

namespace Chain

section

variable {env : Env} {genesis b : Block} {c c' : Chain} {branch q : List Block}

theorem Mapped.nodup (h : Mapped env genesis c branch)
    : (commitsOf branch).Nodup := by
  obtain ⟨last, hlast⟩ := h.onBranch.exists_getLast
  have hlength := h.onBranch.main.length_eq hlast
  rw [List.getLast?_eq_getElem?] at hlast
  have hnodup := (h.blocks.of_branch h.onBranch.main hlast).nodup
  rwa [List.take_of_length_le (by omega)] at hnodup

structure Kept (env : Env) (genesis : Block) (c : Chain) (branch : List Block) : Prop where
  mapped : Mapped env genesis c branch
  created : c.store.EachBlock env genesis fun q b => ∀ x ∈ b.body.inputs, x.commit ∈ commitsOf q
  leafSets : LeafSets branch c.txhashset.outputPmmr c.txhashset.rproofPmmr

theorem Kept.mem_rewindRmPos (h : Kept env genesis c branch)
    (hspent : SpentBy env c.store (branch.drop i) rewindRmPos)
    : pos ∈ rewindRmPos
        ↔
      ∃ n commit, pos = leafPos n ∧ (commitsOf branch)[n]? = some commit
        ∧ commit ∈ spentOf (branch.drop i) := by
  have hmain := h.mapped.onBranch.main
  have hblock {fb : Block} (hfb : fb ∈ branch.drop i)
      : ∃ j, branch[j]? = some fb ∧ MappedBlock env c.store (branch.take (j + 1)) fb := by
    obtain ⟨m, hm⟩ := List.getElem?_of_mem hfb
    rw [List.getElem?_drop] at hm
    exact ⟨i + m, hm, h.mapped.blocks.of_branch hmain hm⟩
  rw [hspent]
  simp only [spentOf, List.mem_flatMap, List.mem_map]
  constructor
  . rintro ⟨fb, hfb, stored, hstored, hmem⟩
    obtain ⟨j, -, hmapped⟩ := hblock hfb
    rw [hmapped.bitmap, Option.some.injEq] at hstored
    rw [← hstored] at hmem
    obtain ⟨n, rfl⟩ := exists_of_mem_spentPositions hmem
    obtain ⟨x, hx, hn⟩ := (mem_spentPositions hmapped.nodup).mp hmem
    exact ⟨n, x.commit, rfl, getElem?_commitsOf_mono (List.take_prefix _ _) hn, fb, hfb, x, hx, rfl⟩
  . rintro ⟨n, commit, rfl, hn, fb, hfb, x, hx, rfl⟩
    obtain ⟨j, hj, hmapped⟩ := hblock hfb
    obtain ⟨m, hm⟩ := List.getElem?_of_mem (h.created.of_branch hmain hj x hx)
    -- the commitments are distinct, so it is the output that was created before
    have hmn : m = n := by
      have hm' := getElem?_commitsOf_mono (List.take_prefix (j + 1) branch) hm
      obtain ⟨hlt, hm'⟩ := List.getElem?_eq_some_iff.mp hm'
      obtain ⟨hlt', hn⟩ := List.getElem?_eq_some_iff.mp hn
      exact h.mapped.nodup.getElem_inj_iff.mp (hm'.trans hn.symm)
    subst hmn
    exact ⟨fb, hfb, _, hmapped.bitmap, (mem_spentPositions hmapped.nodup).mpr ⟨x, hx, hm⟩⟩

theorem Kept.leafPos_mem_rewindRmPos (h : Kept env genesis c branch)
    (hspent : SpentBy env c.store (branch.drop i) rewindRmPos)
    : ∀ n commit, (commitsOf (branch.take i))[n]? = some commit →
        (leafPos n ∈ rewindRmPos ↔ commit ∈ spentOf (branch.drop i)) := by
  intro n commit hn
  have hn' := getElem?_commitsOf_mono (List.take_prefix i branch) hn
  rw [h.mem_rewindRmPos hspent]
  constructor
  . rintro ⟨m, other, hm, hother, hmem⟩
    rw [← leafPos_injective hm, hn', Option.some.injEq] at hother
    rw [hother]
    exact hmem
  . intro hmem
    exact ⟨n, commit, rfl, hn', hmem⟩

theorem next_of_prefix (h : done ++ [fb] <+: q ++ [b])
    : q[done.length]? = some fb ∧ q.take (done.length + 1) = done ++ [fb] ∨ done = q ∧ fb = b := by
  rw [List.prefix_concat_iff] at h
  rcases h with heq | hinitial
  . exact .inr (List.append_inj' heq rfl |>.imp_right List.singleton_inj.mp)
  . obtain ⟨rest, rfl⟩ := hinitial
    exact .inl ⟨by simp, List.take_left' (by simp)⟩

-- the extension of a block, when it holds some blocks of a branch
structure Keeping (c : Chain) (done : List Block) (ext : Extension) : Prop where
  indexing : Indexing c done ext
  leafSets : LeafSets done ext.outputPmmr ext.rproofPmmr

theorem Kept.carries
    (h : Kept env genesis c branch) (htakes : Takes env genesis c c' branch q b isFork headHeader ext)
    (htraced : Traced c branch q b)
    : Pipe.Carries env (c.started env b) headHeader branch q b
        fun done ext => Keeping c done ext ∧ ext.Holds env done where
  start := ⟨⟨⟨h.mapped.index, rfl⟩, h.leafSets⟩, h.mapped.onBranch.holds⟩
  rewind i fb ext' rewindRmPos batch hfb hrewinds := by
    obtain ⟨hindexing, hholds⟩ :=
      (h.mapped.carries htakes htraced.created).rewind i fb ext' rewindRmPos batch hfb hrewinds
    have hmain := htakes.joins.main
    obtain ⟨last, hlast⟩ := h.mapped.onBranch.exists_getLast
    have hhead := htakes.isHead
    rw [hlast] at hhead
    injection hhead with hhead
    subst hhead
    obtain ⟨-, hspent⟩ := inputPosToRewind_eq_ok hmain.headers
      (fun b hb => h.mapped.bitmaps b (List.mem_of_mem_drop hb)) hfb hlast hrewinds.found
    refine ⟨⟨hindexing, ?_, ?_⟩, hholds⟩
    . rw [hrewinds.state]
      apply h.leafSets.unspent.rewind h.mapped.onBranch.holds.outputPruned
      . rw [(hmain.recorded i fb hfb).output, PMMR.lastParent_mmrSize]
      . exact h.leafPos_mem_rewindRmPos hspent
    . rw [hrewinds.state]
      apply h.leafSets.paired.rewind h.mapped.onBranch.holds.outputPruned
      intro pos hpos
      obtain ⟨n, -, hn, -⟩ := (h.mem_rewindRmPos hspent).mp hpos
      exact ⟨n, hn⟩
  apply done fb ext ext' sums hinitial hext hextends := by
    obtain ⟨⟨hindexing, hleafSets⟩, hholds⟩ := hext
    have hspent : ∀ x ∈ fb.body.inputs, x.commit ∈ commitsOf (done ++ [fb]) := by
      rcases next_of_prefix hinitial with ⟨hfb, htake⟩ | ⟨rfl, rfl⟩
      . rw [← htake]
        exact h.created.of_branch htakes.side hfb
      . exact htraced.spent
    obtain ⟨hindexing', hholds'⟩ := (h.mapped.carries htakes htraced.created).apply done fb ext ext' sums
      hinitial ⟨hindexing, hholds⟩ hextends
    have hstored : Extension.Holds env done { ext with
        batch := ext.batch.saveBlockSums (fb.header.hash env) sums } := hholds
    have hpaired : Paired { ext with
        batch := ext.batch.saveBlockSums (fb.header.hash env) sums }.outputPmmr { ext with
        batch := ext.batch.saveBlockSums (fb.header.hash env) sums }.rproofPmmr := hleafSets.paired
    have hnodup := htraced.created.sublist (commitsOf_mono hinitial).sublist
    refine ⟨⟨hindexing', ?_, hpaired.applyBlock hstored hextends.applied⟩, hholds'⟩
    exact Extension.unspent_applyBlock hstored hleafSets.unspent hindexing.index hnodup hspent
      hextends.applied

theorem OnBranch.unique (h : OnBranch env genesis c branch) (hq : OnBranch env genesis c q)
    : q = branch := by
  obtain ⟨last, hlast⟩ := hq.exists_getLast
  apply h.current.eq_of_head hq.main hlast
  rw [hq.head, hlast]
  rfl

theorem OnBranch.batch_headHeader (h : OnBranch env genesis c branch)
    (hlast : branch.getLast? = some last)
    : c.store.batch.headHeader = .ok last.header := by
  have hhead : c.store.batch.head = .ok (.fromHeader env last.header) := by
    apply Outcome.okOr_eq_ok.mpr
    change c.store.head = _
    rw [h.head, hlast]
    rfl
  rw [Batch.headHeader, hhead, Outcome.ok_bind]
  exact Outcome.okOr_eq_ok.mpr (h.main.getBlockHeader (List.mem_of_getLast? hlast))

theorem Kept.takes
    (h : Kept env genesis c branch) (htakes : Takes env genesis c c' branch q b isFork headHeader ext)
    (htraced : Traced c branch q b) (hsettled : c'.Settled)
    : ∃ branch', Kept env genesis c' branch' := by
  obtain ⟨ext₀, ext₁, sums, head, -, ⟨hkeeping, -⟩, hresult⟩ :=
    htakes.result h.mapped.onBranch (h.carries htakes htraced)
  obtain ⟨branch', hmapped⟩ := h.mapped.takes htakes htraced hsettled
  have hbranch := hmapped.onBranch.unique (hresult.onBranch h.mapped.onBranch htakes hsettled)
  rw [← hbranch] at hmapped
  refine ⟨_, hmapped, ?_, ?_⟩
  . exact h.created.grows (hresult.grows htakes) (fun _ _ _ hcreated => hcreated) htraced.spent
  . rw [hresult.chain]
    split
    . exact hkeeping.leafSets.sync
    . exact h.leafSets

theorem Kept.congr (h : Kept env genesis c branch) (hstore : c'.store = c.store)
    (htrees : c'.txhashset = c.txhashset)
    : Kept env genesis c' branch := by
  refine ⟨h.mapped.congr hstore htrees, ?_, ?_⟩
  . rw [hstore]
    exact h.created
  . rw [htrees]
    exact h.leafSets

theorem Kept.processBlockSingle (h : Kept env genesis c branch)
    (htraceable : Traceable env genesis c b)
    (hreturns : (c.processBlockSingle env clock b opts).1.Returns)
    : ∃ branch', Kept env genesis (c.processBlockSingle env clock b opts).2 branch' := by
  have hon := h.mapped.onBranch
  rcases hon.processBlockSingle htraceable.height rfl hreturns
    with ⟨hsettled, q, isFork, headHeader, ext, htakes⟩ | ⟨hstore, htrees⟩
  . obtain ⟨prev, hprev, hlink⟩ := htakes.parent
    exact h.takes htakes (htraceable.traced branch q prev hon.current htakes.side hprev hlink) hsettled
  . exact ⟨branch, h.congr hstore htrees⟩

theorem kept_init {powVerifier : BlockHeader → Bool} {archiveMode : Bool}
    (hheight : genesis.header.height = 0) (hrecorded : Recorded [genesis] 0 genesis)
    (hinputs : genesis.body.inputs = []) (hnodup : (commitsOf [genesis]).Nodup)
    (h : init env powVerifier archiveMode genesis = .ok c)
    : Kept env genesis c [genesis] := by
  have hmapped := mapped_init hheight hrecorded hinputs hnodup h
  obtain ⟨sums, ext, hstarts⟩ := init_eq_ok h
  have hnone : ∀ x ∈ genesis.body.inputs, x.commit ∈ commitsOf [genesis] := by
    rw [hinputs]
    exact List.forall_mem_nil _
  have hnew : Extension.Holds env []
      (.new ⟨.new, genesisBatch env genesis⟩ genesis.header) := TxHashSet.Holds.new env
  have hindex : (Extension.new ⟨.new, genesisBatch env genesis⟩ genesis.header).batch.Indexes
      (commitsOf []) := by
    intro n commit hn
    simp [commitsOf, outputsOf] at hn
  have hpaired : Paired (Extension.new ⟨.new, genesisBatch env genesis⟩ genesis.header).outputPmmr
      (Extension.new ⟨.new, genesisBatch env genesis⟩ genesis.header).rproofPmmr := .new
  refine ⟨hmapped, ?_, ?_⟩
  . intro hash b hb
    obtain ⟨rfl, rfl⟩ := eq_genesis_of_lookup_init h hb
    exact ⟨[b], hmapped.onBranch.main, rfl, hnone⟩
  . rw [hstarts.txhashset]
    refine ⟨?_, (hpaired.applyBlock hnew hstarts.applied).sync⟩
    exact (Extension.unspent_applyBlock hnew (.new _) hindex hnodup hnone hstarts.applied).sync

theorem kept_run {powVerifier : BlockHeader → Bool} {archiveMode : Bool}
    (hheight : genesis.header.height = 0) (hrecorded : Recorded [genesis] 0 genesis)
    (hinputs : genesis.body.inputs = []) (hnodup : (commitsOf [genesis]).Nodup)
    (h : init env powVerifier archiveMode genesis = .ok c)
    (hrun : ProcessRun env (Traceable env genesis) c c')
    : ∃ branch, Kept env genesis c' branch := by
  apply hrun.invariant (P := fun c => ∃ branch, Kept env genesis c branch)
  . rintro c pool ⟨branch, h⟩
    exact ⟨branch, h.congr rfl rfl⟩
  . rintro clock c b opts htraceable ⟨branch, h⟩ hreturns
    exact h.processBlockSingle htraceable hreturns
  . exact ⟨[genesis], kept_init hheight hrecorded hinputs hnodup h⟩

end

end Chain
end Epic
