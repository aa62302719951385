import Epic.Chain.Pipe.ProcessBlock

/-!
This module contains what the pipeline does to the store and to the sync mountain range when it takes
in a list of headers.
-/

namespace Epic
namespace Pipe

open Routine

def saveHeaders (env : Env) (headers : List BlockHeader) (batch : Batch) : Batch :=
  headers.foldl (fun batch header => batch.saveBlockHeader env header) batch

theorem getBlockHeader_saveHeaders (hstored : batch.db.headers.getBlockHeader k = some header)
    (hsame : ∀ other ∈ headers, other.hash env = k → other = header)
    : (saveHeaders env headers batch).db.headers.getBlockHeader k = some header := by
  induction headers generalizing batch with
  | nil => exact hstored
  | cons other headers ih =>
    obtain ⟨hother, hsame⟩ := List.forall_mem_cons.mp hsame
    apply ih _ hsame
    unfold HeaderDb.getBlockHeader Batch.saveBlockHeader HeaderDb.saveBlockHeader
    by_cases hk : k = other.hash env
    . rw [hk, AList.lookup_insert, hother hk.symm]
    . rw [AList.lookup_insert_ne hk]
      exact hstored

theorem getBlockHeader_saveHeaders_of_mem (hmem : header ∈ headers)
    (hsame : ∀ other ∈ headers, other.hash env = header.hash env → other = header)
    : (saveHeaders env headers batch).db.headers.getBlockHeader (header.hash env) = some header := by
  induction headers generalizing batch with
  | nil => contradiction
  | cons other headers ih =>
    have hrest := (List.forall_mem_cons.mp hsame).2
    rcases List.mem_cons.mp hmem with rfl | hmem
    . have hstored : (batch.saveBlockHeader env header).db.headers.getBlockHeader (header.hash env)
          = some header := AList.lookup_insert _
      have hsaved := getBlockHeader_saveHeaders hstored hrest
      exact hsaved
    . exact ih hmem hrest

theorem applyHeader_eq_ok
    (hok : HeaderExtension.applyHeader env header ext = (.ok h, ext'))
    : ∃ pos p,
        PMMR.push env header ext.pmmr = (.ok pos, p)
          ∧
        ext' = { ext with header := header, pmmr := p } := by
  obtain ⟨pos, ext₁, hpush, hrest⟩ := bind_eq_ok.mp hok
  obtain ⟨⟨⟩, ext₂, hmodify, hroot⟩ := bind_eq_ok.mp hrest
  rw [mapErr_eq_ok, zoom_eq_ok] at hpush
  obtain ⟨p, hpush, hext₁⟩ := hpush
  rw [modify_eq_ok] at hmodify
  simp only [HeaderExtension.root, query_eq_ok] at hroot
  refine ⟨pos, p, hpush, ?_⟩
  rw [← hroot.2, ← hmodify, ← hext₁]

theorem validateRoot_eq_ok
    (hok : HeaderExtension.validateRoot env header ext = (.ok u, ext'))
    : ext' = ext := by
  unfold HeaderExtension.validateRoot at hok
  split at hok
  . simp only [pure_apply, Prod.mk.injEq] at hok
    exact hok.2.symm
  . obtain ⟨root, ext₁, hroot, hok⟩ := bind_eq_ok.mp hok
    simp only [HeaderExtension.root, query_eq_ok] at hroot
    rw [lift_eq_ok] at hok
    rw [← hok.2, ← hroot.2]

theorem syncHeader_eq_ok
    (hok : syncHeader env header ext = (.ok u, ext'))
    : ∃ pos p,
        PMMR.push env header ext.pmmr = (.ok pos, p)
          ∧
        ext' = { ext with
          header := header
          pmmr := p
          batch := ext.batch.saveBlockHeader env header } := by
  obtain ⟨⟨⟩, ext₁, hroot, hok⟩ := bind_eq_ok.mp hok
  obtain ⟨h, ext₂, happly, hok⟩ := bind_eq_ok.mp hok
  rw [validateRoot_eq_ok hroot] at happly
  obtain ⟨pos, p, hpush, rfl⟩ := applyHeader_eq_ok happly
  rw [modify_eq_ok] at hok
  exact ⟨pos, p, hpush, hok.symm⟩

theorem forEach_syncHeader_eq_ok (hok : Routine.forEach headers (syncHeader env) ext = (.ok u, ext'))
    : ext'.batch = saveHeaders env headers ext.batch ∧ ext'.rollback = ext.rollback := by
  apply forEach_eq_ok
    (fun done ext' => ext'.batch = saveHeaders env done ext.batch ∧ ext'.rollback = ext.rollback)
    ⟨rfl, rfl⟩ _ hok
  intro done header ext₁ ext₂ _ hdone hheader
  obtain ⟨pos, p, -, rfl⟩ := syncHeader_eq_ok hheader
  refine ⟨?_, hdone.2⟩
  unfold saveHeaders
  rw [List.foldl_append]
  exact congrArg (Batch.saveBlockHeader env · header) hdone.1

/-!
The sync mountain range is written when the unit of work on it succeeds, before the headers are
validated.
-/

theorem syncExtending_eq_ok {α : Type} {inner : Routine HeaderExtension ErrorKind α}
    {st st' : ChainState} {r : α} (h : syncExtending inner st = (.ok r, st'))
    : ∃ header ext,
        inner ⟨header, st.trees.syncPmmr, false, st.batch⟩ = (.ok r, ext)
          ∧
        (ext.rollback = false
          → st' = ⟨{ st.trees with syncPmmr := ext.pmmr.sync }, ext.batch⟩) := by
  obtain ⟨header, st₁, hheader, h⟩ := bind_eq_ok.mp h
  rw [query_eq_ok] at hheader
  obtain ⟨-, rfl⟩ := hheader
  refine ⟨header, (inner ⟨header, st.trees.syncPmmr, false, st.batch⟩).2, ?_⟩
  unfold runHeaderExtension HeaderExtension.close at h
  dsimp only at h
  split at h
  . next r' hr' =>
    split at h
    . next hrollback =>
      simp only [Prod.mk.injEq, Outcome.ok.injEq] at h
      refine ⟨Prod.ext (hr'.trans (congrArg _ h.1)) rfl, ?_⟩
      intro hfalse
      rw [hfalse] at hrollback
      contradiction
    . simp only [Prod.mk.injEq, Outcome.ok.injEq] at h
      refine ⟨Prod.ext (hr'.trans (congrArg _ h.1)) rfl, ?_⟩
      intro _
      exact h.2.symm
  . simp at h
  . simp at h
  . simp at h

theorem syncExtending_eq_err {α : Type} {inner : Routine HeaderExtension ErrorKind α}
    {st st' : ChainState} {e : ErrorKind} (h : syncExtending inner st = (.err e, st'))
    : st' = st
        ∨
      ∃ header,
        st' = { st with trees := { st.trees with
          syncPmmr := PMMR.discard st.trees.syncPmmr
            (inner ⟨header, st.trees.syncPmmr, false, st.batch⟩).2.pmmr } } := by
  rcases bind_eq_err.mp h with hquery | ⟨header, st₁, hheader, h⟩
  . left
    exact (Prod.mk.inj hquery).2.symm
  . right
    rw [query_eq_ok] at hheader
    obtain ⟨-, rfl⟩ := hheader
    refine ⟨header, ?_⟩
    unfold runHeaderExtension HeaderExtension.close at h
    dsimp only at h
    split at h
    . split at h <;> simp at h
    . exact (Prod.mk.inj h).2.symm
    . simp at h
    . simp at h

theorem forEach_validateHeaderIn_eq_ok
    (h : Routine.forEach headers (validateHeaderIn env ctx) st = (.ok u, st'))
    : st' = st ∧ ∀ header ∈ headers, validateHeader env ctx st.batch.db.headers header = .ok () := by
  apply forEach_eq_ok
    (fun done st' => st' = st
      ∧ ∀ header ∈ done, validateHeader env ctx st.batch.db.headers header = .ok ())
    ⟨rfl, by simp⟩ _ h
  intro done header st₁ st₂ _ hdone hvalid
  obtain ⟨rfl, hdone⟩ := hdone
  simp only [validateHeaderIn, query_eq_ok] at hvalid
  refine ⟨hvalid.2.symm, ?_⟩
  intro other hother
  rcases List.mem_append.mp hother with hmem | hmem
  . exact hdone other hmem
  . rw [List.mem_singleton.mp hmem]
    exact hvalid.1

theorem forEach_validateHeaderIn
    (hvalid : ∀ header ∈ headers, validateHeader env ctx st.batch.db.headers header = .ok ())
    : Routine.forEach headers (validateHeaderIn env ctx) st = (.ok (), st) := by
  induction headers with
  | nil => rfl
  | cons header headers ih =>
    obtain ⟨hheader, hvalid⟩ := List.forall_mem_cons.mp hvalid
    exact bind_eq_ok.mpr ⟨(), st, query_eq_ok.mpr ⟨hheader, rfl⟩, ih hvalid⟩

structure SyncedNew (env : Env) (ctx : Ctx) (first : BlockHeader) (headers : List BlockHeader)
    (st st' : ChainState) : Prop where
  synced : ∃ prev header ext,
    st.batch.getPreviousHeader first = .ok prev
      ∧
    extendSync env prev headers ⟨header, st.trees.syncPmmr, false, st.batch⟩ = (.ok (), ext)
      ∧
    st'.trees = { st.trees with syncPmmr := ext.pmmr.sync }
  batch : st'.batch = saveHeaders env headers st.batch
  valid : ∀ header ∈ headers, validateHeader env ctx st'.batch.db.headers header = .ok ()

theorem syncExtending_extendSync_eq_ok {env : Env} {prev : BlockHeader} {headers : List BlockHeader}
    {st st' : ChainState} {u : Unit}
    (h : syncExtending (extendSync env prev headers) st = (.ok u, st'))
    : ∃ header ext,
        extendSync env prev headers ⟨header, st.trees.syncPmmr, false, st.batch⟩ = (.ok (), ext)
          ∧
        st' = ⟨{ st.trees with syncPmmr := ext.pmmr.sync }, saveHeaders env headers st.batch⟩ := by
  obtain ⟨header, ext, hinner, hst'⟩ := syncExtending_eq_ok h
  obtain ⟨⟨⟩, ext₁, hrewind, hheaders⟩ := bind_eq_ok.mp hinner
  simp only [HeaderExtension.rewind, modify_eq_ok] at hrewind
  obtain ⟨hsaved, hrollback⟩ := forEach_syncHeader_eq_ok hheaders
  rw [← hrewind] at hsaved hrollback
  refine ⟨header, ext, hinner, ?_⟩
  rw [hst' hrollback, hsaved]

theorem syncNewHeaders_eq_ok (h : syncNewHeaders env ctx first headers st = (.ok u, st'))
    : SyncedNew env ctx first headers st st' := by
  obtain ⟨prev, st₁, hprev, h⟩ := bind_eq_ok.mp h
  rw [query_eq_ok] at hprev
  obtain ⟨hprev, rfl⟩ := hprev
  obtain ⟨⟨⟩, st₁, hsync, h⟩ := bind_eq_ok.mp h
  obtain ⟨rfl, hvalid⟩ := forEach_validateHeaderIn_eq_ok h
  obtain ⟨header, ext, hextend, rfl⟩ := syncExtending_extendSync_eq_ok hsync
  exact ⟨⟨prev, header, ext, hprev, hextend, rfl⟩, rfl, hvalid⟩

theorem updateTips_ne_err {env : Env} {last : BlockHeader} {st st' : ChainState} {e : ErrorKind} {tip : Tip}
    (htip : st.batch.db.headerHead = some tip)
    : (updateSyncHead env last >>= fun _ => updateHeaderHead env last) st ≠ (.err e, st') := by
  intro herr
  rcases bind_eq_err.mp herr with hsync | ⟨⟨⟩, st₁, hsync, herr⟩
  . simp [updateSyncHead] at hsync
  simp only [updateSyncHead, modify_eq_ok] at hsync
  subst hsync
  rcases bind_eq_err.mp herr with hhead | ⟨head, st₁, -, herr⟩
  . simp [query, Batch.headerHead, Batch.saveSyncHead, htip, Outcome.okOr] at hhead
  . split at herr
    . rcases bind_eq_err.mp herr with hmodify | ⟨⟨⟩, st₂, -, hpure⟩
      . simp at hmodify
      . simp at hpure
    . simp at herr

theorem forEach_lift_state {β : Type} {l : List β} {f : β → Outcome ErrorKind Unit} (st : ChainState)
    : (Routine.forEach l (fun b => Routine.lift (f b)) st).2 = st :=
  Preserves.forEach (P := fun st' => st' = st) (fun b _ => .lift (f b)) st rfl

-- The tips are those of the last header, whether its hash was known before or not.
structure SyncedTo (env : Env) (ctx : Ctx) (headers : List BlockHeader) (st st' : ChainState)
    (first last : BlockHeader) (saved : ChainState) : Prop where
  isFirst : headers.head? = some first
  isLast : headers.getLast? = some last
  kept : saved = st ∧ allKnown env st.batch last = true
    ∨ allKnown env st.batch last = false ∧ SyncedNew env ctx first headers st saved
  state : st' = { saved with batch := { saved.batch with db := { saved.batch.db with
    syncHead := some (.fromHeader env last)
    headerHead := betterTip env saved.batch.db.headerHead last } } }

theorem syncBlockHeaders_eq_ok {env : Env} {ctx : Ctx} {headers : List BlockHeader}
    {st st' : ChainState} {tip : Option Tip}
    (h : syncBlockHeaders env ctx headers st = (.ok tip, st'))
    : st' = st ∨ ∃ first last saved, SyncedTo env ctx headers st st' first last saved := by
  unfold syncBlockHeaders at h
  cases hfirst : headers.head? with
  | none =>
    left
    simp only [hfirst, pure_apply, Prod.mk.injEq] at h
    exact h.2.symm
  | some first =>
  cases hlast : headers.getLast? with
  | none =>
    left
    simp only [hfirst, hlast, pure_apply, Prod.mk.injEq] at h
    exact h.2.symm
  | some last =>
    right
    simp only [hfirst, hlast] at h
    obtain ⟨⟨⟩, st₁, hbad, hrest⟩ := bind_eq_ok.mp h
    have hst₁ : st₁ = st := by
      rw [← forEach_lift_state st, hbad]
    rw [hst₁] at hrest
    obtain ⟨known, st₂, hknown, hrest⟩ := bind_eq_ok.mp hrest
    rw [gets_eq_ok] at hknown
    rw [← hknown.1, ← hknown.2] at hrest
    obtain ⟨⟨⟩, saved, hnew, hrest⟩ := bind_eq_ok.mp hrest
    obtain ⟨⟨⟩, st₃, hsync, hupdate⟩ := bind_eq_ok.mp hrest
    simp only [updateSyncHead, modify_eq_ok] at hsync
    obtain ⟨-, hst'⟩ := updateHeaderHead_eq_ok hupdate
    refine ⟨first, last, saved, hfirst, hlast, ?_, ?_⟩
    . unfold Routine.onlyIf at hnew
      split at hnew
      . next hnot =>
        right
        exact ⟨by simpa using hnot, syncNewHeaders_eq_ok hnew⟩
      . next hknown =>
        left
        simp only [pure_apply, Prod.mk.injEq] at hnew
        exact ⟨hnew.2.symm, by simpa using hknown⟩
    . rw [hst', ← hsync]
      rfl

end Pipe
end Epic
