import Epic.Chain.Tips
import Epic.Chain.TxHashSet.Headers

/-!
This module contains the sync mountain range over the calls that take in headers: what it means that it
holds the branch of the sync head, and the calls that keep it so.
-/

namespace Epic

open Routine Pmmr

namespace Chain

structure SyncTracks (env : Env) (c : Chain) (branch : List BlockHeader) : Prop where
  path : HeaderDb.Branch env c.store.headers branch
  genesis : branch.head? = some c.genesis
  tracks : c.txhashset.syncPmmr.Tracks env branch
  syncHead : ∃ last, branch.getLast? = some last ∧ c.store.syncHead = some (.fromHeader env last)
  headerHead : ∃ tip, c.store.headerHead = some tip
  settled : c.Settled

-- New headers continue the branch of the sync head if their parent is on it, they follow each other,
-- no two of them and none of the stored ones share a hash, and all of them are valid.
structure Continues (env : Env) (ctx : Pipe.Ctx) (c : Chain) (first : BlockHeader)
    (headers : List BlockHeader) : Prop where
  parent : ∀ prev, c.store.headers.getPreviousHeader first = some prev →
    getHeaderHash c.txhashset.syncPmmr (insertionToPmmrIndex (prev.height.toNat + 1))
      = some first.prevHash
  linked : headers.IsChain fun prev header => header.prevHash = prev.hash env
  stored : ∀ header ∈ headers, ∀ other,
    c.store.headers.getBlockHeader (header.hash env) = some other → other = header
  distinct : ∀ header ∈ headers, ∀ other ∈ headers, other.hash env = header.hash env → other = header
  positive : ∀ header ∈ headers, header.height ≠ 0
  valid : ∀ header ∈ headers,
    Pipe.validateHeader env ctx (Pipe.saveHeaders env headers c.store.batch).db.headers header = .ok ()

-- A list of headers, the last of which is either the sync head, or new.
structure Fits (env : Env) (clock : Clock) (opts : Options) (c : Chain) (headers : List BlockHeader)
    : Prop where
  known : ∀ last, headers.getLast? = some last → Pipe.allKnown env c.store.batch last = true →
    c.store.syncHead = some (.fromHeader env last)
  fresh : ∀ first last, headers.head? = some first → headers.getLast? = some last →
    Pipe.allKnown env c.store.batch last = false → Continues env (c.newCtx clock opts) c first headers

section

variable {env : Env} {ctx : Pipe.Ctx} {c : Chain} {branch headers : List BlockHeader}
  {first : BlockHeader}

theorem SyncTracks.ne_nil (h : SyncTracks env c branch)
    : branch ≠ [] := by
  rintro rfl
  have hgenesis := h.genesis
  contradiction

theorem SyncTracks.getElem?_parent (h : SyncTracks env c branch)
    (hcontinues : Continues env ctx c first headers)
    (hprev : c.store.headers.getPreviousHeader first = some prev)
    : branch[prev.height.toNat]? = some prev ∧ first.prevHash = prev.hash env := by
  have hleaf := hcontinues.parent prev hprev
  rw [h.tracks.getHeaderHash, Option.map_eq_some_iff] at hleaf
  obtain ⟨header, hheader, hhash⟩ := hleaf
  have hstored := h.path.stored header (List.mem_of_getElem? hheader)
  rw [hhash] at hstored
  have : header = prev := Option.some.inj (hstored.symm.trans hprev)
  subst this
  exact ⟨hheader, hhash.symm⟩

theorem Continues.child (hcontinues : Continues env ctx c first headers)
    (hmem : header ∈ headers)
    : HeaderDb.Branch.Child (Pipe.saveHeaders env headers c.store.batch).db.headers header := by
  obtain ⟨-, prev, hchecked⟩ := Pipe.validateHeader_eq_ok.mp (hcontinues.valid header hmem)
  exact ⟨prev, hchecked.parent,
    MachineInt.toNat_of_add_one hchecked.height (hcontinues.positive header hmem)⟩

theorem SyncTracks.branch_append (h : SyncTracks env c branch)
    (hcontinues : Continues env ctx c first headers) (hfirst : headers.head? = some first)
    (hprev : c.store.headers.getPreviousHeader first = some prev)
    : HeaderDb.Branch env (Pipe.saveHeaders env headers c.store.batch).db.headers
        (branch.take (prev.height.toNat + 1) ++ headers) := by
  obtain ⟨hparent, hlink⟩ := h.getElem?_parent hcontinues hprev
  have hkept : HeaderDb.Branch env (Pipe.saveHeaders env headers c.store.batch).db.headers
      (branch.take (prev.height.toNat + 1)) := by
    apply (h.path.take _).of_stored
    intro header hmem
    have hstored := h.path.stored header (List.mem_of_mem_take hmem)
    apply Pipe.getBlockHeader_saveHeaders hstored
    intro other hother hhash
    rw [← hhash] at hstored
    exact (hcontinues.stored other hother header hstored).symm
  have hlast : (branch.take (prev.height.toNat + 1)).getLast? = some prev := by
    rw [List.take_add_one, hparent]
    simp
  apply hkept.append hlast
  . obtain ⟨rest, rfl⟩ := List.head?_eq_some_iff.mp hfirst
    exact List.isChain_cons_cons.mpr ⟨hlink, hcontinues.linked⟩
  . intro header hmem
    exact Pipe.getBlockHeader_saveHeaders_of_mem hmem (hcontinues.distinct header hmem)
  . intro header hmem
    exact hcontinues.child hmem

theorem SyncTracks.tracks_append (h : SyncTracks env c branch)
    (hparent : branch[prev.height.toNat]? = some prev)
    (hextend : Pipe.extendSync env prev headers ⟨header, c.txhashset.syncPmmr, false, batch⟩
      = (.ok u, ext))
    : ext.pmmr.Tracks env (branch.take (prev.height.toNat + 1) ++ headers) := by
  obtain ⟨⟨⟩, ext₁, hrewind, hheaders⟩ := bind_eq_ok.mp hextend
  simp only [HeaderExtension.rewind, modify_eq_ok] at hrewind
  obtain ⟨hlt, -⟩ := List.getElem?_eq_some_iff.mp hparent
  have hrewound := h.tracks.rewind h.settled.syncPmmr hlt ∅
  apply forEach_eq_ok
    (fun done ext => ext.pmmr.Tracks env (branch.take (prev.height.toNat + 1) ++ done)) _ _ hheaders
  . rw [← hrewind, List.append_nil]
    exact hrewound
  . intro done header ext₁ ext₂ _ htracks hsync
    obtain ⟨pos, p, hpush, rfl⟩ := Pipe.syncHeader_eq_ok hsync
    rw [← List.append_assoc]
    exact htracks.push hpush

theorem SyncTracks.syncNewHeaders_err (h : SyncTracks env c branch)
    (hcontinues : Continues env ctx c first headers)
    (herr : Pipe.syncNewHeaders env ctx first headers c.state = (.err e, st))
    : st.trees = c.txhashset := by
  rcases bind_eq_err.mp herr with hprev | ⟨prev, st₁, hprev, herr⟩
  . rw [← (Prod.mk.inj hprev).2]
    rfl
  rw [query_eq_ok] at hprev
  obtain ⟨-, rfl⟩ := hprev
  rcases bind_eq_err.mp herr with hsync | ⟨⟨⟩, st₁, hsync, herr⟩
  . rcases Pipe.syncExtending_eq_err hsync with rfl | ⟨header, rfl⟩
    . rfl
    . have hpending := Pipe.preserves_extendSync h.settled.syncPmmr env prev headers
        ⟨header, c.txhashset.syncPmmr, false, c.state.batch⟩
        ⟨PMMRBackend.Pending.refl h.settled.syncPmmr, by simp⟩
      have hdiscard := h.tracks.discard_eq h.settled.syncPmmr h.ne_nil hpending.pmmr
      exact congrArg (fun p => { c.txhashset with syncPmmr := p }) hdiscard
  . obtain ⟨header, ext, -, hst₁⟩ := Pipe.syncExtending_extendSync_eq_ok hsync
    have hbatch : st₁.batch = Pipe.saveHeaders env headers c.store.batch := by rw [hst₁]; rfl
    have hvalid := hcontinues.valid
    rw [← hbatch] at hvalid
    rw [Pipe.forEach_validateHeaderIn hvalid] at herr
    simp at herr

theorem SyncTracks.syncBlockHeaders_err (h : SyncTracks env c branch) (hfits : Fits env clock opts c headers)
    (herr : Pipe.syncBlockHeaders env (c.newCtx clock opts) headers c.state = (.err e, st))
    : st.trees = c.txhashset := by
  unfold Pipe.syncBlockHeaders at herr
  cases hfirst : headers.head? with
  | none => simp [hfirst] at herr
  | some first =>
  cases hlast : headers.getLast? with
  | none => simp [hfirst, hlast] at herr
  | some last =>
    simp only [hfirst, hlast] at herr
    rcases bind_eq_err.mp herr with hbad | ⟨⟨⟩, st₁, hbad, herr⟩
    . have hst : st = c.state := by
        rw [← Pipe.forEach_lift_state c.state, hbad]
      rw [hst]
      rfl
    have hst₁ : st₁ = c.state := by
      rw [← Pipe.forEach_lift_state c.state, hbad]
    subst hst₁
    rcases bind_eq_err.mp herr with hknown | ⟨known, st₁, hknown, herr⟩
    . simp at hknown
    rw [gets_eq_ok] at hknown
    obtain ⟨rfl, rfl⟩ := hknown
    obtain ⟨tip, htip⟩ := h.headerHead
    rcases bind_eq_err.mp herr with hnew | ⟨⟨⟩, st₁, hnew, herr⟩
    . unfold Routine.onlyIf at hnew
      split at hnew
      . next hknown =>
        rw [Bool.not_eq_true'] at hknown
        exact h.syncNewHeaders_err (hfits.fresh first last hfirst hlast hknown) hnew
      . simp at hnew
    . have hst₁ : st₁.batch.db.headerHead = some tip := by
        unfold Routine.onlyIf at hnew
        split at hnew
        . rw [(Pipe.syncNewHeaders_eq_ok hnew).batch]
          exact (Pipe.saveHeaders_spec env headers c.state.batch).2.2.2.2.trans htip
        . simp only [pure_apply, Prod.mk.injEq, true_and] at hnew
          rw [← hnew]
          exact htip
      exact absurd herr (Pipe.updateTips_ne_err hst₁)

theorem SyncTracks.commit_new (h : SyncTracks env c branch)
    (hfirst : headers.head? = some first) (hlast : headers.getLast? = some last)
    (hcontinues : Continues env ctx c first headers)
    (hnew : Pipe.SyncedNew env ctx first headers c.state saved)
    : ∃ branch',
        HeaderDb.Branch env saved.batch.db.headers branch'
          ∧
        branch'.head? = some c.genesis
          ∧
        saved.trees.syncPmmr.Tracks env branch'
          ∧
        branch'.getLast? = some last := by
  obtain ⟨prev, header, ext, hprev, hextend, htrees⟩ := hnew.synced
  have hprev : c.store.headers.getPreviousHeader first = some prev := Outcome.okOr_eq_ok.mp hprev
  obtain ⟨hparent, -⟩ := h.getElem?_parent hcontinues hprev
  refine ⟨branch.take (prev.height.toNat + 1) ++ headers, ?_, ?_, ?_, ?_⟩
  . rw [hnew.batch]
    exact h.branch_append hcontinues hfirst hprev
  . rw [List.head?_append, List.head?_take, if_neg (by omega), h.genesis]
    rfl
  . rw [htrees]
    exact (h.tracks_append hparent hextend).sync
  . rw [List.getLast?_append, hlast]
    rfl

theorem SyncTracks.commit (h : SyncTracks env c branch) (hfits : Fits env clock opts c headers)
    (hok : Pipe.syncBlockHeaders env (c.newCtx clock opts) headers c.state = (.ok tip, st))
    (hsettled : (c.commit st).Settled)
    : ∃ branch', SyncTracks env (c.commit st) branch' := by
  rcases Pipe.syncBlockHeaders_eq_ok hok with rfl | ⟨first, last, saved, hsynced⟩
  . exact ⟨branch, h⟩
  obtain ⟨old, hold⟩ := h.headerHead
  rcases hsynced.kept with ⟨rfl, hknown⟩ | ⟨hknown, hnew⟩
  . have hhead := hfits.known last hsynced.isLast hknown
    obtain ⟨last', hlast', hsync⟩ := h.syncHead
    rw [hsynced.state] at hsettled ⊢
    refine ⟨branch, h.path, h.genesis, h.tracks, ⟨last', hlast', hhead.symm.trans hsync⟩, ?_, hsettled⟩
    exact Pipe.exists_betterTip _ _ hold
  . have hcontinues := hfits.fresh first last hsynced.isFirst hsynced.isLast hknown
    obtain ⟨branch', hpath, hgenesis, htracks, hlast⟩ :=
      h.commit_new hsynced.isFirst hsynced.isLast hcontinues hnew
    rw [hsynced.state] at hsettled ⊢
    refine ⟨branch', hpath, hgenesis, htracks, ⟨last, hlast, rfl⟩, ?_, hsettled⟩
    have hsame : saved.batch.db.headerHead = some old := by
      rw [hnew.batch]
      exact (Pipe.saveHeaders_spec env headers c.state.batch).2.2.2.2.trans hold
    exact Pipe.exists_betterTip _ _ hsame

end

/-!
A sync starts with a mountain range that is built anew for the header head.
-/

section

variable {env : Env} {c : Chain} {branch : List BlockHeader}

theorem headerHashes_eq_ok {batch : Batch} {fuel n : Nat} {current : BlockHeader}
    {hashes hashes' : List Hash} (hpath : HeaderDb.Branch env batch.db.headers branch)
    (hcurrent : branch[n]? = some current)
    (h : HeaderExtension.headerHashes env batch fuel current hashes = .ok hashes')
    : hashes' = ((branch.take (n + 1)).tail.map (·.hash env)) ++ hashes := by
  induction fuel generalizing n current hashes with
  | zero => simp [HeaderExtension.headerHashes] at h
  | succ fuel ih =>
    have hheight := hpath.height n current hcurrent
    unfold HeaderExtension.headerHashes at h
    split at h
    . next hpos =>
      rw [gt_iff_lt, UInt64.lt_iff_toNat_lt, hheight] at hpos
      obtain ⟨m, rfl⟩ : ∃ m, n = m + 1 := Nat.exists_eq_add_one.mpr hpos
      obtain ⟨prev, hprev, h⟩ := Outcome.bind_eq_ok.mp h
      have hparent := hpath.getPreviousHeader hcurrent
      have hprev : batch.db.headers.getPreviousHeader current = some prev := Outcome.okOr_eq_ok.mp hprev
      rw [hprev] at hparent
      rw [ih hparent.symm h, List.take_add_one (i := m + 1), hcurrent,
        List.tail_append_of_ne_nil (by simp [List.ne_nil_of_mem (List.mem_of_getElem? hcurrent)])]
      simp
    . next hzero =>
      rw [gt_iff_lt, UInt64.lt_iff_toNat_lt, hheight] at hzero
      have : n = 0 := Nat.eq_zero_of_not_pos hzero
      subst this
      injection h with h
      rw [← h, List.take_add_one, hcurrent]
      rfl

theorem reapplyHeader_eq_ok
    (hok : HeaderExtension.reapplyHeader env h ext = (.ok u, ext'))
    : ∃ header pos p,
        ext.batch.getBlockHeader h = .ok header
          ∧
        PMMR.push env header ext.pmmr = (.ok pos, p)
          ∧
        ext' = { ext with header := header, pmmr := p } := by
  obtain ⟨header, ext₁, hheader, hok⟩ := bind_eq_ok.mp hok
  rw [query_eq_ok] at hheader
  obtain ⟨hheader, rfl⟩ := hheader
  obtain ⟨⟨⟩, ext₁, hroot, hok⟩ := bind_eq_ok.mp hok
  rw [Pipe.validateRoot_eq_ok hroot] at hok
  obtain ⟨root, ext₂, happly, hpure⟩ := bind_eq_ok.mp hok
  obtain ⟨pos, p, hpush, rfl⟩ := Pipe.applyHeader_eq_ok happly
  simp only [pure_apply, Prod.mk.injEq, true_and] at hpure
  exact ⟨header, pos, p, hheader, hpush, hpure.symm⟩

theorem rebuild_eq_ok {last genesis : BlockHeader} {ext ext' : HeaderExtension} {u : Unit}
    (hpath : HeaderDb.Branch env ext.batch.db.headers branch) (hgenesis : branch.head? = some genesis)
    (hlast : branch.getLast? = some last) (hempty : ext.pmmr.truncate.Tracks env [])
    (hok : HeaderExtension.rebuild env (.fromHeader env last) genesis ext = (.ok u, ext'))
    : ext'.pmmr.Tracks env branch ∧ ext'.batch = ext.batch ∧ ext'.rollback = ext.rollback := by
  obtain ⟨hashes, ext₁, hhashes, hok⟩ := bind_eq_ok.mp hok
  rw [query_eq_ok] at hhashes
  obtain ⟨hhashes, rfl⟩ := hhashes
  obtain ⟨current, hcurrent, hhashes⟩ := Outcome.bind_eq_ok.mp hhashes
  have hcurrent : ext.batch.db.headers.getBlockHeader (last.hash env) = some current :=
    Outcome.okOr_eq_ok.mp hcurrent
  rw [hpath.stored last (List.mem_of_getLast? hlast)] at hcurrent
  obtain rfl := Option.some.inj hcurrent
  rw [List.getLast?_eq_getElem?] at hlast
  have hne : 0 < branch.length := List.length_pos_iff.mpr (by rintro rfl; contradiction)
  have hwalk := headerHashes_eq_ok hpath hlast hhashes
  rw [Nat.sub_add_cancel hne, List.take_length, List.append_nil] at hwalk
  obtain ⟨⟨⟩, ext₁, htruncate, hok⟩ := bind_eq_ok.mp hok
  simp only [HeaderExtension.truncate, modify_eq_ok] at htruncate
  obtain ⟨root, ext₂, happly, hok⟩ := bind_eq_ok.mp hok
  obtain ⟨pos, p, hpush, rfl⟩ := Pipe.applyHeader_eq_ok happly
  -- the loop has pushed headers with the hashes it is done with
  obtain ⟨⟨headers, hheaders, htracks⟩, hbatch, hrollback⟩ := forEach_eq_ok
    (fun done ext₁ =>
      (∃ headers : List BlockHeader, headers.map (·.hash env) = done
        ∧ ext₁.pmmr.Tracks env (genesis :: headers))
      ∧ ext₁.batch = ext.batch ∧ ext₁.rollback = ext.rollback)
    (by
      subst htruncate
      exact ⟨⟨[], rfl, hempty.push hpush⟩, rfl, rfl⟩)
    (by
      rintro done h ext₁ ext₂ hmem ⟨⟨headers, hheaders, htracks⟩, hbatch, hrollback⟩ hreapply
      obtain ⟨header, pos, p, hheader, hpush, rfl⟩ := reapplyHeader_eq_ok hreapply
      refine ⟨⟨headers ++ [header], ?_, htracks.push hpush⟩, hbatch, hrollback⟩
      rw [hwalk, List.mem_map] at hmem
      obtain ⟨stored, hstored, rfl⟩ := hmem
      have hheader : ext₁.batch.db.headers.getBlockHeader (stored.hash env) = some header :=
        Outcome.okOr_eq_ok.mp hheader
      rw [hbatch, hpath.stored stored (List.mem_of_mem_tail hstored)] at hheader
      obtain rfl := Option.some.inj hheader
      rw [List.map_append, hheaders]
      rfl)
    hok
  refine ⟨htracks.congr ?_, hbatch, hrollback⟩
  obtain ⟨rest, rfl⟩ := List.head?_eq_some_iff.mp hgenesis
  rw [List.map_cons, List.map_cons, hheaders, hwalk]
  rfl

theorem preserves_rebuild (hbase : base.Settled) (env : Env) (head : Tip)
    (genesis : BlockHeader)
    : Preserves (HeaderExtension.Pending base false) (HeaderExtension.rebuild env head genesis) := by
  refine .bind (.query _) fun hashes => ?_
  apply Preserves.bind
  . apply Preserves.modify
    intro ext hext
    exact ⟨PMMRBackend.Pending.rewind hbase hext.pmmr _ _, hext.rollback⟩
  . intro _
    refine .bind (HeaderExtension.preserves_applyHeader env genesis) fun _ => ?_
    apply Preserves.forEach
    intro h _
    refine .bind (.query _) fun header => ?_
    refine .bind (HeaderExtension.preserves_validateRoot env header) fun _ => ?_
    exact .bind (HeaderExtension.preserves_applyHeader env header) fun _ => .pure _

theorem syncTracks_rebuildSyncMmr {last : BlockHeader}
    (hpath : HeaderDb.Branch env c.store.headers branch) (hgenesis : branch.head? = some c.genesis)
    (hlast : branch.getLast? = some last) (hsyncHead : c.store.syncHead = some (.fromHeader env last))
    (hheaderHead : ∃ tip, c.store.headerHead = some tip) (hsettled : c.Settled)
    (hprunable : c.txhashset.syncPmmr.backend.prunable = false)
    (hpruneList : c.txhashset.syncPmmr.backend.pruneList = .new)
    (hok : (c.rebuildSyncMmr env (.fromHeader env last)).1 = .ok ())
    : SyncTracks env (c.rebuildSyncMmr env (.fromHeader env last)).2 branch := by
  have hsettled' := Pipe.preserves_syncExtending
    (fun _ hbase => preserves_rebuild hbase env (.fromHeader env last) c.genesis) c.state hsettled
  unfold rebuildSyncMmr at hok ⊢
  rcases hres : syncExtending (HeaderExtension.rebuild env (.fromHeader env last) c.genesis) c.state
    with ⟨(⟨⟩ | e | _ | _), st⟩ <;> rw [hres] at hok hsettled'
  . obtain ⟨header, ext, hrebuild, hst⟩ := Pipe.syncExtending_eq_ok hres
    obtain ⟨htracks, hbatch, hrollback⟩ := rebuild_eq_ok hpath hgenesis hlast
      (.truncate hsettled.syncPmmr hprunable hpruneList) hrebuild
    obtain rfl := hst hrollback
    dsimp only [Chain.commit]
    rw [hbatch]
    exact ⟨hpath, hgenesis, htracks.sync, ⟨last, hlast, hsyncHead⟩, hheaderHead, hsettled'⟩
  . simp at hok
  . simp at hok
  . simp at hok

end

def SyncLaw (env : Env) (c : Chain) : Prop := ∃ branch, SyncTracks env c branch

inductive SyncRun (env : Env) (start : Chain) : Chain → Prop
  | start : SyncRun env start start
  | call {c : Chain} (clock : Clock) (headers : List BlockHeader) (opts : Options) :
      SyncRun env start c → Fits env clock opts c headers →
      (c.syncBlockHeaders env clock headers opts).1.Returns →
      SyncRun env start (c.syncBlockHeaders env clock headers opts).2

theorem SyncLaw.syncBlockHeaders (h : SyncLaw env c) (hfits : Fits env clock opts c headers)
    (hreturns : (c.syncBlockHeaders env clock headers opts).1.Returns)
    : SyncLaw env (c.syncBlockHeaders env clock headers opts).2
        ∧
      ∀ e, (c.syncBlockHeaders env clock headers opts).1 = .err e →
        (c.syncBlockHeaders env clock headers opts).2 = c := by
  obtain ⟨branch, h⟩ := h
  have hsettled := settled_apply h.settled env (.syncBlockHeaders clock headers opts)
  change Settled (c.syncBlockHeaders env clock headers opts).2 at hsettled
  unfold Chain.syncBlockHeaders at hreturns hsettled ⊢
  rcases hres : Pipe.syncBlockHeaders env (c.newCtx clock opts) headers c.state
    with ⟨(tip | e | _ | _), st⟩ <;> rw [hres] at hreturns hsettled
  . exact ⟨h.commit hfits hres hsettled, by simp⟩
  . have hdrop : c.drop st = c := by
      unfold Chain.drop
      rw [h.syncBlockHeaders_err hfits hres]
    dsimp only
    rw [hdrop]
    exact ⟨⟨branch, h⟩, fun _ _ => rfl⟩
  . simp at hreturns
  . simp at hreturns

theorem SyncRun.syncLaw {env : Env} {start c : Chain} (hstart : SyncLaw env start)
    (h : SyncRun env start c)
    : SyncLaw env c := by
  induction h with
  | start => exact hstart
  | call clock headers opts _ hfits hreturns ih => exact (ih.syncBlockHeaders hfits hreturns).1

theorem sync_mmr_follows_sync_head {env : Env} {start c : Chain} (hstart : SyncLaw env start)
    (hrun : SyncRun env start c)
    : SyncLaw env c
        ∧
      ∀ clock headers opts e, Fits env clock opts c headers →
        (c.syncBlockHeaders env clock headers opts).1 = .err e →
        (c.syncBlockHeaders env clock headers opts).2.txhashset.syncPmmr = c.txhashset.syncPmmr
          ∧
        (c.syncBlockHeaders env clock headers opts).2.store.syncHead = c.store.syncHead := by
  have hlaw := hrun.syncLaw hstart
  refine ⟨hlaw, ?_⟩
  intro clock headers opts e hfits herr
  have hreturns : (c.syncBlockHeaders env clock headers opts).1.Returns := by
    rw [herr]
    trivial
  rw [(hlaw.syncBlockHeaders hfits hreturns).2 e herr]
  exact ⟨rfl, rfl⟩

namespace Sample

def synced : Chain := (start.rebuildSyncMmr env (.fromHeader env genesis.header)).2

theorem syncTracks_synced
    : SyncTracks env synced [genesis.header] := by
  obtain ⟨hheaders, -, hheaderHead, hsyncHead, -⟩ := init_store init_start
  have hstored : start.store.headers.getBlockHeader (genesis.header.hash env) = some genesis.header := by
    rw [hheaders]
    exact AList.lookup_insert _
  have hgenesis : start.genesis = genesis.header := by decide
  refine syncTracks_rebuildSyncMmr (.singleton hstored rfl) ?_ rfl hsyncHead ⟨_, hheaderHead⟩
    settled_start ?_ ?_ ?_
  . rw [hgenesis]
    rfl
  . decide
  . decide
  . decide

theorem continues_firstBlock
    : Continues env (synced.newCtx clock .none) synced firstBlock.header [firstBlock.header] := by
  have hparent : synced.store.headers.getPreviousHeader firstBlock.header = some genesis.header := by
    decide
  have hleaf : getHeaderHash synced.txhashset.syncPmmr (insertionToPmmrIndex 1)
      = some firstBlock.header.prevHash := by decide
  have hnew : synced.store.headers.getBlockHeader (firstBlock.header.hash env) = none := by
    decide
  have hvalid : Pipe.validateHeader env (synced.newCtx clock .none)
      (Pipe.saveHeaders env [firstBlock.header] synced.store.batch).db.headers firstBlock.header
        = .ok () := by decide +kernel
  refine ⟨?_, .singleton _, ?_, ?_, ?_, ?_⟩
  . intro prev hprev
    rw [hparent] at hprev
    obtain rfl := Option.some.inj hprev
    exact hleaf
  . intro header hmem other hother
    rw [List.mem_singleton.mp hmem, hnew] at hother
    contradiction
  . intro header hmem other hother _
    rw [List.mem_singleton.mp hmem, List.mem_singleton.mp hother]
  . intro header hmem
    rw [List.mem_singleton.mp hmem]
    decide
  . intro header hmem
    rw [List.mem_singleton.mp hmem]
    exact hvalid

theorem fits_firstBlock
    : Fits env clock .none synced [firstBlock.header] := by
  have hunknown : Pipe.allKnown env synced.store.batch firstBlock.header = false := by decide
  constructor
  . intro last hlast hknown
    simp only [List.getLast?_singleton, Option.some.injEq] at hlast
    rw [← hlast, hunknown] at hknown
    contradiction
  . intro first last hfirst _ _
    simp only [List.head?_cons, Option.some.injEq] at hfirst
    rw [← hfirst]
    exact continues_firstBlock

-- the header of the first block is stored, but is not the sync head
def known : Chain := (synced.processBlock env clock firstBlock .none).2

theorem syncTracks_known
    : SyncTracks env known [genesis.header] := by
  have hpmmr : known.txhashset.syncPmmr = synced.txhashset.syncPmmr := by decide +kernel
  have hsyncHead : known.store.syncHead = some (.fromHeader env genesis.header) := by decide +kernel
  have hgenesis : known.genesis = genesis.header := by decide +kernel
  have hstored : known.store.headers.getBlockHeader (genesis.header.hash env) = some genesis.header := by
    decide +kernel
  have hheaderHead : known.store.headerHead = some (.fromHeader env firstBlock.header) := by
    decide +kernel
  refine ⟨.singleton hstored rfl, ?_, ?_, ⟨_, rfl, hsyncHead⟩, ⟨_, hheaderHead⟩,
    settled_processBlock syncTracks_synced.settled env clock _ _⟩
  . rw [hgenesis]
    rfl
  . rw [hpmmr]
    exact syncTracks_synced.tracks

-- a header that does not pass the first check of all
def unversioned : BlockHeader := { firstBlock.header with version := 0 }

end Sample

open Sample in
theorem sync_mmr_follows_sync_head_firstBlock
    : ∃ c, SyncRun env synced c
        ∧
      c.store.syncHead = some (.fromHeader env firstBlock.header)
        ∧
      SyncLaw env c := by
  have hrun := SyncRun.start.call clock [firstBlock.header] .none fits_firstBlock (by decide +kernel)
  exact ⟨_, hrun, by decide +kernel, (sync_mmr_follows_sync_head ⟨_, syncTracks_synced⟩ hrun).1⟩

-- One call moves the sync head and leaves the mountain range where it is, the other one fails and
-- moves the mountain range.
open Sample in
theorem sync_mmr_loses_sync_head
    : SyncLaw env known
        ∧
      (known.syncBlockHeaders env clock [firstBlock.header] .none).1 = .ok ()
        ∧
      ¬ SyncLaw env (known.syncBlockHeaders env clock [firstBlock.header] .none).2
        ∧
      SyncLaw env synced
        ∧
      (synced.syncBlockHeaders env clock [unversioned] .none).1 = .err (.invalidBlockVersion 0)
        ∧
      (synced.syncBlockHeaders env clock [unversioned] .none).2.txhashset.syncPmmr
        ≠ synced.txhashset.syncPmmr := by
  refine ⟨⟨_, syncTracks_known⟩, by decide +kernel, ?_, ⟨_, syncTracks_synced⟩, by decide +kernel,
    by decide +kernel⟩
  rintro ⟨branch, h⟩
  have hlastPos := h.tracks.lastPos
  obtain ⟨last, hlast, hsyncHead⟩ := h.syncHead
  have hmoved : (known.syncBlockHeaders env clock [firstBlock.header] .none).2.store.syncHead
      = some (.fromHeader env firstBlock.header) := by decide +kernel
  have hleft : (known.syncBlockHeaders env clock [firstBlock.header] .none).2.txhashset.syncPmmr.lastPos
      = 1 := by decide +kernel
  rw [hmoved, Option.some.injEq] at hsyncHead
  have hheight : (1 : UInt64) = last.height := congrArg Tip.height hsyncHead
  have hlength := h.path.height_getLast hlast
  rw [← hheight] at hlength
  have hlength : branch.length = 2 := hlength.symm
  rw [hleft, hlength] at hlastPos
  contradiction

end Chain
end Epic
