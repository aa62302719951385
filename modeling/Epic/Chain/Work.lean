import Epic.Chain.HeadState
import Epic.Chain.Tips

/-!
This module contains the rule that chooses between forks: whatever calls a chain receives, its head has
at least the work of every block in the store, and neither its head nor its header head is ever
replaced by one with less work.
-/

namespace Epic

open Routine

def Tip.AtLeast (work : Nat) (tip : Option Tip) : Prop :=
  ∃ t, tip = some t ∧ work ≤ t.totalDifficulty.total

theorem Pipe.atLeast_betterTip (env : Env) (header : BlockHeader) (h : Tip.AtLeast work tip)
    : Tip.AtLeast work (betterTip env tip header)
        ∧
      Tip.AtLeast header.totalDifficulty.total (betterTip env tip header) := by
  obtain ⟨old, rfl, hold⟩ := h
  unfold betterTip
  dsimp only
  split
  . next hmore =>
    have hlt : old.totalDifficulty.total < header.totalDifficulty.total := by
      simpa [hasMoreWork] using hmore
    exact ⟨⟨_, rfl, hold.trans hlt.le⟩, _, rfl, le_rfl⟩
  . next hmore =>
    have hle : header.totalDifficulty.total ≤ old.totalDifficulty.total := by
      simpa [hasMoreWork] using hmore
    exact ⟨⟨_, rfl, hold⟩, _, rfl, hle⟩

theorem Pipe.blocks_saveHeaders (env : Env) (headers : List BlockHeader) (batch : Batch)
    : (saveHeaders env headers batch).db.blocks = batch.db.blocks := by
  induction headers generalizing batch with
  | nil => rfl
  | cons header headers ih => exact ih (batch.saveBlockHeader env header)

-- the store has tips with at least this much work, and no block with more work than the head
structure ChainStore.Heaviest (body header : Nat) (store : ChainStore) : Prop where
  head : Tip.AtLeast body store.head
  headerHead : Tip.AtLeast header store.headerHead
  blocks : ∀ hash b, store.blocks.lookup hash = some b
    → Tip.AtLeast b.header.totalDifficulty.total store.head

namespace ChainStore.Heaviest

variable {body header : Nat} {store store' : ChainStore}

theorem of_lookup (h : Heaviest body header store) (hhead : store'.head = store.head)
    (hheaderHead : store'.headerHead = store.headerHead)
    (hblocks : ∀ hash b, store'.blocks.lookup hash = some b → store.blocks.lookup hash = some b)
    : Heaviest body header store' where
  head := hhead ▸ h.head
  headerHead := hheaderHead ▸ h.headerHead
  blocks hash b hb := hhead ▸ h.blocks hash b (hblocks hash b hb)

theorem of_frame {batch batch' : Batch} (h : Heaviest body header batch.db)
    (hframe : batch.Frame batch')
    : Heaviest body header batch'.db := by
  apply h.of_lookup hframe.head hframe.headerHead
  intro hash b hb
  rwa [hframe.blocks] at hb

theorem accept (h : Heaviest body header store) {env : Env} {b : Block}
    (hhead : store'.head = Pipe.betterTip env store.head b.header)
    (hheaderHead : store'.headerHead = Pipe.betterTip env store.headerHead b.header)
    (hblocks : store'.blocks = store.blocks.insert (b.hash env) b)
    : Heaviest body header store' := by
  refine ⟨hhead ▸ (Pipe.atLeast_betterTip env b.header h.head).1,
    hheaderHead ▸ (Pipe.atLeast_betterTip env b.header h.headerHead).1, ?_⟩
  intro hash fb hfb
  rw [hhead]
  rw [hblocks] at hfb
  by_cases heq : hash = b.hash env
  . rw [heq, AList.lookup_insert] at hfb
    rw [← Option.some.inj hfb]
    exact (Pipe.atLeast_betterTip env b.header h.head).2
  . rw [AList.lookup_insert_ne heq] at hfb
    exact (Pipe.atLeast_betterTip env b.header (h.blocks hash fb hfb)).1

theorem deleteBlock {batch : Batch} (h : Heaviest body header batch.db) (bh : Hash)
    : Heaviest body header (batch.deleteBlock bh).db := by
  unfold Batch.deleteBlock
  split
  . exact h.of_lookup rfl rfl (OrphanBlockPool.sub_erase batch.db.blocks bh)
  . exact h

end ChainStore.Heaviest

namespace Chain

section

variable {env : Env} {body header : Nat} {c : Chain}

structure Heaviest (body header : Nat) (c : Chain) : Prop where
  settled : c.Settled
  store : c.store.Heaviest body header

theorem Heaviest.processBlockSingle (h : Heaviest body header c) (clock : Clock) (b : Block)
    (opts : Options) (hreturns : (c.processBlockSingle env clock b opts).1.Returns)
    : Heaviest body header (c.processBlockSingle env clock b opts).2 := by
  refine ⟨settled_processBlockSingle h.settled env clock b opts, ?_⟩
  rcases hres : c.processBlockSingle env clock b opts with ⟨(tip | e | _ | _), c'⟩
  . obtain ⟨old, st, -, hpipe, rfl⟩ := processBlockSingle_eq_ok hres
    have hst : c.state.trees.Settled := h.settled
    obtain ⟨isFork, mid, headHeader, ext, haccepted⟩ := Pipe.processBlock_eq_ok hst hpipe
    obtain ⟨-, hhead, hheaderHead, -⟩ := haccepted.tips hst
    refine h.store.accept hhead hheaderHead ?_
    dsimp only [commit]
    rw [haccepted.state]
    split
    . rfl
    . exact congrArg (AList.insert (b.hash env) b) (haccepted.frame hst).blocks
  . obtain ⟨trees, -, -, rfl⟩ := processBlockSingle_eq_err h.settled hres
    exact h.store
  . rw [hres] at hreturns
    contradiction
  . rw [hres] at hreturns
    contradiction

theorem Heaviest.syncBlockHeaders (h : Heaviest body header c) (clock : Clock)
    (headers : List BlockHeader) (opts : Options)
    : Heaviest body header (c.syncBlockHeaders env clock headers opts).2 := by
  have hsettled := settled_apply h.settled env (.syncBlockHeaders clock headers opts)
  refine ⟨hsettled, ?_⟩
  unfold Chain.syncBlockHeaders
  split
  . next st hres =>
    rcases Pipe.syncBlockHeaders_eq_ok hres with rfl | ⟨first, last, saved, hsynced⟩
    . exact h.store
    . have hsaved : ChainStore.Heaviest body header saved.batch.db := by
        rcases hsynced.kept with ⟨rfl, -⟩ | ⟨-, hnew⟩
        . exact h.store
        . obtain ⟨-, -, -, hhead, hheaderHead⟩ := Pipe.saveHeaders_spec env headers c.state.batch
          rw [hnew.batch]
          refine h.store.of_lookup hhead hheaderHead fun hash b hb => ?_
          rwa [Pipe.blocks_saveHeaders] at hb
      dsimp only [commit]
      rw [hsynced.state]
      exact ⟨hsaved.head, (Pipe.atLeast_betterTip env last hsaved.headerHead).1, hsaved.blocks⟩
  . exact h.store
  . exact h.store
  . exact h.store

theorem frame_compactTxHashSet (env : Env) (batch : Batch)
    : Preserves (fun st : ChainState => batch.Frame st.batch) (compactTxHashSet env) := by
  refine .bind (.query _) fun headHeader => ?_
  refine .bind (.query _) fun horizonHash => ?_
  refine .bind (.query _) fun horizonHeader => ?_
  apply Preserves.bind
  . apply Preserves.zoom
    intro st hst
    exact preserves_inputPosToRewind env batch horizonHeader headHeader st.batch hst
  . intro rewindRmPos
    exact .modify fun st hst => hst

theorem frame_extending_rebuildIndex {st : ChainState} (hst : st.Settled)
    : st.batch.Frame (extending Extension.rebuildIndex st).2.batch := by
  unfold extending
  rw [bind_apply, query_apply]
  rcases st.batch.headHeader with (header | e | _ | _)
  . have hpending := Extension.preserves_rebuildIndex (.new st header) (.new hst header)
    unfold runExtension Extension.close
    dsimp only
    split
    . split
      . exact .refl _
      . exact hpending.batch
    . exact .refl _
    . exact .refl _
    . exact .refl _
  . exact .refl _
  . exact .refl _
  . exact .refl _

theorem preserves_compactState_heaviest (env : Env) (archiveMode : Bool)
    : Preserves (fun st => st.Settled ∧ st.batch.db.Heaviest body header)
        (compactState env archiveMode) := by
  refine .bind ?_ fun _ => ?_
  . intro st hst
    refine ⟨preserves_compactTxHashSet env st hst.1, ?_⟩
    exact hst.2.of_frame (frame_compactTxHashSet env st.batch st (.refl _))
  refine .bind ?_ fun _ => ?_
  . intro st hst
    refine ⟨Pipe.preserves_extending (fun _ _ => Extension.preserves_rebuildIndex) st hst.1, ?_⟩
    exact hst.2.of_frame (frame_extending_rebuildIndex hst.1)
  apply Preserves.onlyIf
  refine .bind (.query _) fun head => ?_
  apply Preserves.onlyIf
  refine .bind (.query _) fun tailHash => ?_
  refine .bind (.query _) fun tail => ?_
  apply Preserves.modify
  intro st hst
  have hdeleted : ∀ old : List (Sigma fun _ : Hash => Block), ChainStore.Heaviest body header
      (old.foldl (fun batch e => batch.deleteBlock (e.2.hash env)) st.batch).db := by
    intro old
    exact List.foldlRecOn (motive := fun batch : Batch => batch.db.Heaviest body header) _ _ hst.2
      fun batch hbatch e _ => hbatch.deleteBlock _
  exact ⟨hst.1, (hdeleted _).of_lookup rfl rfl fun _ _ hb => hb⟩

theorem Heaviest.apply {call : Call} (h : Heaviest body header c)
    (hreturns : (call.apply env c).1.Returns)
    : Heaviest body header (call.apply env c).2 := by
  cases call with
  | processBlock clock b opts =>
    refine processBlock_invariant ?_ ?_ h (Outcome.returns_bind.mp hreturns).1
    . exact fun c pool hc => ⟨hc.settled, hc.store⟩
    . exact fun c b opts _ hc => hc.processBlockSingle clock b opts
  | syncBlockHeaders clock headers opts => exact h.syncBlockHeaders clock headers opts
  | resetSyncHead =>
    refine ⟨settled_apply h.settled env .resetSyncHead, ?_⟩
    unfold Call.apply resetSyncHead
    dsimp only
    split
    . exact h.store.of_lookup rfl rfl fun _ _ hb => hb
    . exact h.store
    . exact h.store
    . exact h.store
  | compact =>
    have hst := preserves_compactState_heaviest env c.archiveMode c.state ⟨h.settled, h.store⟩
    refine ⟨settled_apply h.settled env .compact, ?_⟩
    unfold Call.apply compact
    dsimp only
    split
    . exact h.store
    . split
      . next hres =>
        rw [hres] at hst
        exact hst.2
      . exact h.store
      . exact h.store
      . exact h.store

theorem Heaviest.run {c' : Chain} {calls : List Call} (h : Heaviest body header c)
    (hrun : c.run env calls = some c')
    : Heaviest body header c' :=
  run_invariant (fun _ _ _ hc hreturns => hc.apply hreturns) h hrun

theorem Heaviest.init {powVerifier : BlockHeader → Bool} {archiveMode : Bool} {genesis : Block}
    (h : Chain.init env powVerifier archiveMode genesis = .ok c)
    : Heaviest 0 0 c := by
  obtain ⟨-, hhead, hheaderHead, -⟩ := init_store h
  refine ⟨settled_init h, ⟨_, hhead, Nat.zero_le _⟩, ⟨_, hheaderHead, Nat.zero_le _⟩, ?_⟩
  intro hash b hb
  obtain ⟨-, rfl⟩ := eq_genesis_of_lookup_init h hb
  exact ⟨_, hhead, le_rfl⟩

theorem head_is_heaviest {powVerifier : BlockHeader → Bool} {archiveMode : Bool} {genesis : Block}
    {start c' : Chain} {before after : List Call}
    (hinit : Chain.init env powVerifier archiveMode genesis = .ok start)
    (hbefore : start.run env before = some c) (hafter : c.run env after = some c')
    : ∃ head headerHead head' headerHead',
        c.store.head = some head
          ∧
        c.store.headerHead = some headerHead
          ∧
        c'.store.head = some head'
          ∧
        c'.store.headerHead = some headerHead'
          ∧
        head.totalDifficulty.total ≤ head'.totalDifficulty.total
          ∧
        headerHead.totalDifficulty.total ≤ headerHead'.totalDifficulty.total
          ∧
        ∀ hash b, c'.store.blocks.lookup hash = some b
          → b.header.totalDifficulty.total ≤ head'.totalDifficulty.total := by
  have hc := (Heaviest.init hinit).run hbefore
  obtain ⟨head, hhead, -⟩ := hc.store.head
  obtain ⟨headerHead, hheaderHead, -⟩ := hc.store.headerHead
  have hstart : Heaviest head.totalDifficulty.total headerHead.totalDifficulty.total c :=
    ⟨hc.settled, ⟨head, hhead, le_rfl⟩, ⟨headerHead, hheaderHead, le_rfl⟩, hc.store.blocks⟩
  have hc' := hstart.run hafter
  obtain ⟨head', hhead', hle⟩ := hc'.store.head
  obtain ⟨headerHead', hheaderHead', hle'⟩ := hc'.store.headerHead
  refine ⟨head, headerHead, head', headerHead', hhead, hheaderHead, hhead', hheaderHead', hle, hle', ?_⟩
  intro hash b hb
  obtain ⟨t, ht, hwork⟩ := hc'.store.blocks hash b hb
  rw [hhead'] at ht
  rwa [← Option.some.inj ht] at hwork

end

open Sample in
theorem head_is_heaviest_twoCalls
    : ∃ c head, start.run env twoCalls = some c ∧ c.store.head = some head
        ∧
      (∀ hash b, c.store.blocks.lookup hash = some b
        → b.header.totalDifficulty.total ≤ head.totalDifficulty.total) := by
  have hrun : (start.run env twoCalls).isSome := by decide +kernel
  obtain ⟨c, hc⟩ := Option.isSome_iff_exists.mp hrun
  have hstart : start.run env [] = some start := rfl
  obtain ⟨-, -, head, -, -, -, hhead, -, -, -, hblocks⟩ := head_is_heaviest init_start hstart hc
  exact ⟨c, head, hc, hhead, hblocks⟩

end Chain

end Epic
