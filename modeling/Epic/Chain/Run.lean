import Epic.Chain
import Epic.Chain.Pipe.ProcessBlock

/-!
This module contains the calls that change a chain, runs of them, and that nothing is left pending in
the mountain ranges between two calls.
-/

namespace Epic

open Routine

namespace Chain

inductive Call where
  | processBlock (clock : Clock) (b : Block) (opts : Options)
  | syncBlockHeaders (clock : Clock) (headers : List BlockHeader) (opts : Options)
  | resetSyncHead
  | compact

def Call.apply (env : Env) (c : Chain) (call : Call) : Outcome ErrorKind Unit × Chain :=
  match call with
  | .processBlock clock b opts =>
    ((c.processBlock env clock b opts).1 >>= fun _ => .ok (), (c.processBlock env clock b opts).2)
  | .syncBlockHeaders clock headers opts => c.syncBlockHeaders env clock headers opts
  | .resetSyncHead => (c.resetSyncHead.1 >>= fun _ => .ok (), c.resetSyncHead.2)
  | .compact => c.compact env

-- a run goes on after every call that returns, also with an error
def run (env : Env) (c : Chain) (calls : List Call) : Option Chain :=
  match calls with
  | [] => some c
  | call :: calls => if (call.apply env c).1.Returns then run env (call.apply env c).2 calls else none

theorem run_invariant {env : Env} {P : Chain → Prop} {c c' : Chain} {calls : List Call}
    (hstep : ∀ call ∈ calls, ∀ c, P c → (call.apply env c).1.Returns → P (call.apply env c).2)
    (hc : P c) (h : c.run env calls = some c')
    : P c' := by
  induction calls generalizing c with
  | nil =>
    simp only [run, Option.some.injEq] at h
    rw [← h]
    exact hc
  | cons call calls ih =>
    unfold run at h
    split at h
    . next hreturns =>
      apply ih
      . intro call' hcall'
        exact hstep call' (List.mem_cons_of_mem call hcall')
      . exact hstep call List.mem_cons_self c hc hreturns
      . exact h
    . contradiction

end Chain

/-!
Every unit of work leaves the mountain ranges settled, whether it is kept or not.
-/

def ChainState.Settled (st : ChainState) : Prop := st.trees.Settled

namespace Pipe

theorem preserves_extending {α : Type} {inner : Routine Extension ErrorKind α}
    (hinner : ∀ st : ChainState, st.Settled → Preserves (Extension.Pending st) inner)
    : Preserves ChainState.Settled (extending inner) := by
  intro st hst
  unfold extending
  rw [bind_apply]
  rw [query_apply]
  rcases st.batch.headHeader with (header | e | _ | _)
  . have hpending := hinner st hst (.new st header) (.new hst header)
    unfold runExtension Extension.close
    dsimp only
    split
    . split
      . exact hpending.settled_discard hst
      . exact hpending.settled_sync hst
    . exact hpending.settled_discard hst
    . exact hpending.settled_discard hst
    . exact hpending.settled_discard hst
  . exact hst
  . exact hst
  . exact hst

theorem preserves_syncExtending {α : Type} {inner : Routine HeaderExtension ErrorKind α}
    (hinner : ∀ base : PMMR HeaderEntry, base.Settled
      → Preserves (HeaderExtension.Pending base false) inner)
    : Preserves ChainState.Settled (syncExtending inner) := by
  intro st hst
  unfold syncExtending extendingHeaders
  rw [bind_apply]
  rw [query_apply]
  rcases (st.batch.getSyncHead >>= fun tip => st.batch.getBlockHeader tip.lastBlockH)
    with (header | e | _ | _)
  . have hpending := hinner st.trees.syncPmmr hst.syncPmmr ⟨header, st.trees.syncPmmr, false, st.batch⟩
      ⟨PMMRBackend.Pending.refl hst.syncPmmr, by simp⟩
    have hdiscard := PMMR.settled_discard hst.syncPmmr hpending.pmmr
    have hsync := PMMR.settled_sync hst.syncPmmr hpending.pmmr
    unfold runHeaderExtension HeaderExtension.close
    dsimp only
    split
    . split
      . exact ⟨hst.headerPmmr, hdiscard, hst.outputPmmr, hst.rproofPmmr, hst.kernelPmmr⟩
      . exact ⟨hst.headerPmmr, hsync, hst.outputPmmr, hst.rproofPmmr, hst.kernelPmmr⟩
    . exact ⟨hst.headerPmmr, hdiscard, hst.outputPmmr, hst.rproofPmmr, hst.kernelPmmr⟩
    . exact ⟨hst.headerPmmr, hdiscard, hst.outputPmmr, hst.rproofPmmr, hst.kernelPmmr⟩
    . exact ⟨hst.headerPmmr, hdiscard, hst.outputPmmr, hst.rproofPmmr, hst.kernelPmmr⟩
  . exact hst
  . exact hst
  . exact hst

theorem preserves_settled_setBatch
    (hf : ∀ st, (f st).trees = st.trees)
    : Preserves ChainState.Settled (.modify f : Routine ChainState ErrorKind Unit) := by
  apply Preserves.modify
  intro st hst
  unfold ChainState.Settled
  rw [hf]
  exact hst

theorem preserves_settled_updateTip (env : Env) (header : BlockHeader)
    (get : Batch → Outcome ErrorKind Tip) (save : Batch → Tip → Batch)
    : Preserves ChainState.Settled (updateTip env header get save) := by
  refine .bind (.query _) fun head => ?_
  split
  . exact .bind (preserves_settled_setBatch fun _ => rfl) fun _ => .pure _
  . exact .pure _

theorem preserves_settled_processHeaderForBlock (env : Env) (ctx : Ctx) (header : BlockHeader)
    (isFork : Bool)
    : Preserves ChainState.Settled (processHeaderForBlock env ctx header isFork) := by
  intro st hst
  exact (headerUnseen_processHeaderForBlock hst env ctx header isFork).settled_trees hst

theorem preserves_settled_processBlock (env : Env) (ctx : Ctx) (orphans : OrphanBlockPool) (b : Block)
    : Preserves ChainState.Settled (processBlock env ctx orphans b) := by
  refine .bind (.query _) fun _ => ?_
  refine .bind (.query _) fun isFork => ?_
  refine .bind (preserves_settled_processHeaderForBlock env ctx b.header isFork) fun _ => ?_
  refine .bind (.query _) fun _ => ?_
  refine .bind (preserves_extending fun st hst => preserves_extendBlock hst env b isFork) fun _ => ?_
  refine .bind (preserves_settled_setBatch fun _ => rfl) fun _ => ?_
  refine .bind (preserves_settled_setBatch fun st => ?_) fun _ => ?_
  . split <;> rfl
  . exact preserves_settled_updateTip env b.header _ _

theorem preserves_extendSync (hbase : base.Settled) (env : Env)
    (prevHeader : BlockHeader) (headers : List BlockHeader)
    : Preserves (HeaderExtension.Pending base false) (extendSync env prevHeader headers) := by
  refine .bind (HeaderExtension.preserves_rewind hbase prevHeader) fun _ => ?_
  apply Preserves.forEach
  intro header _
  refine .bind (HeaderExtension.preserves_validateRoot env header) fun _ => ?_
  refine .bind (HeaderExtension.preserves_applyHeader env header) fun _ => ?_
  apply Preserves.modify
  intro ext hext
  exact ⟨hext.pmmr, hext.rollback⟩

theorem preserves_settled_syncBlockHeaders (env : Env) (ctx : Ctx) (headers : List BlockHeader)
    : Preserves ChainState.Settled (syncBlockHeaders env ctx headers) := by
  unfold syncBlockHeaders
  split
  . next first last _ _ =>
    refine .bind (.forEach fun _ _ => .lift _) fun _ => ?_
    refine .bind (.gets _) fun known => ?_
    apply Preserves.bind
    . apply Preserves.onlyIf
      refine .bind (.query _) fun prevHeader => ?_
      apply Preserves.bind
      . exact preserves_syncExtending fun _ hbase => preserves_extendSync hbase env prevHeader headers
      . intro _
        exact .forEach fun _ _ => .query _
    . intro _
      refine .bind (preserves_settled_setBatch fun _ => rfl) fun _ => ?_
      exact preserves_settled_updateTip env last _ _
  . exact .pure _

end Pipe

namespace Chain

theorem processBlockSingle_of_ok {c : Chain}
    (hhead : c.store.head = some old)
    (h : Pipe.processBlock env (c.newCtx clock opts) c.orphans b c.state = (.ok head, st))
    : c.processBlockSingle env clock b opts = (.ok head, c.commit st) := by
  have hok : c.store.batch.head = .ok old := Outcome.okOr_eq_ok.mpr hhead
  unfold processBlockSingle
  rw [hok]
  dsimp only
  rw [h]

theorem processBlockSingle_of_err {c : Chain}
    (hhead : c.store.head = some old)
    (h : Pipe.processBlock env (c.newCtx clock opts) c.orphans b c.state = (.err e, st))
    : c.processBlockSingle env clock b opts = rejectBlock env clock (c.drop st) b opts e := by
  have hok : c.store.batch.head = .ok old := Outcome.okOr_eq_ok.mpr hhead
  unfold processBlockSingle
  rw [hok]
  dsimp only
  rw [h]

theorem processBlockSingle_eq_ok {c c' : Chain}
    (h : c.processBlockSingle env clock b opts = (.ok head, c'))
    : ∃ old st,
        c.store.head = some old
          ∧
        Pipe.processBlock env (c.newCtx clock opts) c.orphans b c.state = (.ok head, st)
          ∧
        c' = c.commit st := by
  unfold processBlockSingle at h
  split at h
  . next old hold =>
    split at h
    . next head' st hres =>
      simp only [Prod.mk.injEq, Outcome.ok.injEq] at h
      rw [h.1] at hres
      exact ⟨old, st, Outcome.okOr_eq_ok.mp hold, hres, h.2.symm⟩
    . unfold rejectBlock at h
      split at h <;> simp at h
    . simp at h
    . simp at h
  . simp at h
  . simp at h
  . simp at h

theorem avoids_checkOrphansAfter (env : Env) (clock : Clock) (height : UInt64) (e : ErrorKind)
    : Avoids e (checkOrphansAfter env clock height) := by
  have hprocess : ∀ orphans accepted, Avoids e (processOrphans env clock orphans accepted) := by
    intro orphans
    induction orphans with
    | nil =>
      intro accepted
      exact .pure _
    | cons orphan orphans ih =>
      intro accepted c
      unfold processOrphans
      split
      . exact ih _ _
      . exact ih _ _
      . simp
      . simp
  have hcheck : ∀ fuel height, Avoids e (checkOrphans env clock fuel height) := by
    intro fuel
    induction fuel with
    | zero =>
      intro height
      exact .lift (by simp)
    | succ fuel ih =>
      intro height
      refine .bind (fun _ => Outcome.ok_ne_err) fun orphans => ?_
      refine .bind (hprocess orphans none) fun accepted => ?_
      split
      . exact .bind (.lift MachineInt.add_ne_err) fun next => ih next
      . exact .pure _
  refine .bind (.lift MachineInt.add_ne_err) fun next => ?_
  exact .bind (.gets _) fun len => hcheck _ next

theorem processBlock_eq_err {c c' : Chain}
    : c.processBlock env clock b opts = (.err e, c')
        ↔
      c.processBlockSingle env clock b opts = (.err e, c') := by
  unfold processBlock
  split
  . next head c₁ hres =>
    rw [hres]
    constructor
    . intro h
      have havoids := avoids_checkOrphansAfter env clock b.header.height e
      exact ((havoids.bind fun _ => .pure _).elim h).elim
    . intro h
      simp at h
  . exact Iff.rfl

theorem processBlock_eq_ok {c c' : Chain} (h : c.processBlock env clock b opts = (.ok head, c'))
    : ∃ c₁, c.processBlockSingle env clock b opts = (.ok head, c₁) := by
  unfold processBlock at h
  split at h
  . next head' c₁ hres =>
    obtain ⟨⟨⟩, c₂, -, hpure⟩ := bind_eq_ok.mp h
    simp only [pure_apply, Prod.mk.injEq, Outcome.ok.injEq] at hpure
    exact ⟨c₁, hpure.1 ▸ hres⟩
  . next hne => exact absurd h (hne head c')

def Settled (c : Chain) : Prop := c.txhashset.Settled

theorem preserves_compactTxHashSet (env : Env)
    : Preserves ChainState.Settled (compactTxHashSet env) := by
  refine .bind (.query _) fun headHeader => ?_
  refine .bind (.query _) fun horizonHash => ?_
  refine .bind (.query _) fun horizonHeader => ?_
  refine .bind (.zoom fun st hst => hst) fun rewindRmPos => ?_
  apply Preserves.modify
  intro st hst
  exact ⟨hst.headerPmmr, hst.syncPmmr, hst.outputPmmr.checkCompact _ _,
    hst.rproofPmmr.checkCompact _ _, hst.kernelPmmr⟩

theorem preserves_compactState (env : Env) (archiveMode : Bool)
    : Preserves ChainState.Settled (compactState env archiveMode) := by
  refine .bind (preserves_compactTxHashSet env) fun _ => ?_
  refine .bind (Pipe.preserves_extending fun _ _ => Extension.preserves_rebuildIndex) fun _ => ?_
  apply Preserves.onlyIf
  refine .bind (.query _) fun head => ?_
  apply Preserves.onlyIf
  refine .bind (.query _) fun tailHash => ?_
  refine .bind (.query _) fun tail => ?_
  exact Pipe.preserves_settled_setBatch fun _ => rfl

theorem settled_processBlockSingle {c : Chain} (hc : c.Settled) (env : Env) (clock : Clock)
    (b : Block) (opts : Options)
    : (c.processBlockSingle env clock b opts).2.Settled := by
  have hst := Pipe.preserves_settled_processBlock env (c.newCtx clock opts) c.orphans b c.state hc
  unfold processBlockSingle
  split
  . split
    . next hres =>
      rw [hres] at hst
      exact hst
    . next hres =>
      rw [hres] at hst
      unfold rejectBlock
      split <;> exact hst
    . next hres =>
      rw [hres] at hst
      exact hst
    . next hres =>
      rw [hres] at hst
      exact hst
  . exact hc
  . exact hc
  . exact hc

theorem preserves_processOrphans (env : Env) (clock : Clock) (orphans : List Orphan)
    (accepted : Option UInt64)
    : Preserves Settled (processOrphans env clock orphans accepted) := by
  induction orphans generalizing accepted with
  | nil => exact .pure _
  | cons orphan orphans ih =>
    intro c hc
    have hsingle := settled_processBlockSingle hc env clock orphan.block orphan.opts
    unfold processOrphans
    split <;> next hres =>
      rw [hres] at hsingle
      first
        | exact ih _ _ hsingle
        | exact hsingle

theorem preserves_checkOrphans (env : Env) (clock : Clock) (fuel : Nat) (height : UInt64)
    : Preserves Settled (checkOrphans env clock fuel height) := by
  induction fuel generalizing height with
  | zero => exact .lift _
  | succ fuel ih =>
    apply Preserves.bind
    . intro c hc
      exact hc
    . intro orphans
      refine .bind (preserves_processOrphans env clock orphans none) fun accepted => ?_
      split
      . exact .bind (.lift _) fun next => ih next
      . exact .pure _

theorem settled_processBlock {c : Chain} (hc : c.Settled) (env : Env) (clock : Clock) (b : Block)
    (opts : Options)
    : (c.processBlock env clock b opts).2.Settled := by
  have hsingle := settled_processBlockSingle hc env clock b opts
  unfold processBlock
  split
  . next hres =>
    rw [hres] at hsingle
    refine Preserves.bind ?_ (fun _ => .pure _) _ hsingle
    refine .bind (.lift _) fun next => ?_
    refine .bind (.gets _) fun len => ?_
    exact preserves_checkOrphans env clock _ next
  . exact hsingle

theorem settled_apply (hc : c.Settled) (env : Env) (call : Call)
    : (call.apply env c).2.Settled := by
  cases call with
  | processBlock clock b opts => exact settled_processBlock hc env clock b opts
  | syncBlockHeaders clock headers opts =>
    have hst := Pipe.preserves_settled_syncBlockHeaders env (c.newCtx clock opts) headers c.state hc
    unfold Call.apply syncBlockHeaders
    dsimp only
    split <;> next hres =>
      rw [hres] at hst
      exact hst
  | resetSyncHead =>
    unfold Call.apply resetSyncHead
    dsimp only
    split <;> exact hc
  | compact =>
    have hst := preserves_compactState env c.archiveMode c.state hc
    unfold Call.apply compact
    dsimp only
    split
    . exact hc
    . split <;> next hres =>
        rw [hres] at hst
        exact hst

theorem settled_run {env : Env} {c c' : Chain} {calls : List Call} (hc : c.Settled)
    (h : c.run env calls = some c')
    : c'.Settled :=
  run_invariant (fun call _ _ hc _ => settled_apply hc env call) hc h

theorem settled_init {env : Env} {powVerifier : BlockHeader → Bool} {archiveMode : Bool}
    {genesis : Block} {c : Chain} (h : init env powVerifier archiveMode genesis = .ok c)
    : c.Settled := by
  have hnew : ChainState.Settled ⟨.new, ChainStore.new.batch⟩ := ⟨.new _, .new _, .new _, .new _, .new _⟩
  have hsetup : Preserves ChainState.Settled (setupHead env genesis) := by
    refine .bind (Pipe.preserves_settled_setBatch fun _ => rfl) fun _ => ?_
    refine .bind (.lift _) fun sums => ?_
    apply Preserves.bind
    . apply Pipe.preserves_extending
      intro st hst
      refine .bind (Extension.preserves_applyBlock env genesis) fun _ => ?_
      refine .bind (.query _) fun _ => ?_
      exact .query _
    . intro _
      exact Pipe.preserves_settled_setBatch fun _ => rfl
  have hst := hsetup _ hnew
  unfold init at h
  split at h
  . next hres =>
    rw [hres] at hst
    injection h with h
    rw [← h]
    exact hst
  . contradiction
  . contradiction
  . contradiction

end Chain

end Epic
