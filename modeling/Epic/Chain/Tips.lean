import Epic.Chain.Genesis
import Epic.Chain.Pipe.SyncHeaders
import Epic.Chain.Shadow
import Mathlib.Logic.Relation

/-!
This module contains what the tips of a chain stand for: headers that were submitted, whose hashes the
store knows. They are the headers stored under these hashes as long as no two submitted headers share
a hash and differ in what a tip carries.
-/

namespace Epic

open Routine

namespace OrphanBlockPool

variable {α β γ : Type} [DecidableEq α]

def Sub (t t' : AList fun _ : α => β) : Prop :=
  ∀ a x, t.lookup a = some x → t'.lookup a = some x

theorem sub_erase (t : AList fun _ : α => β) (a : α)
    : Sub (t.erase a) t := by
  intro b x h
  by_cases hab : b = a
  . rw [hab, AList.lookup_erase] at h
    contradiction
  . rwa [AList.lookup_erase_ne hab] at h

theorem sub_foldl {f : (AList fun _ : α => β) → γ → AList fun _ : α => β}
    (hf : ∀ t c, Sub (f t c) t) (l : List γ) (t : AList fun _ : α => β)
    : Sub (l.foldl f t) t := by
  induction l generalizing t with
  | nil => exact fun _ _ h => h
  | cons c l ih => exact fun a x h => hf t c a x (ih (f t c) a x h)

theorem sub_retain (p : α → β → Bool) (t : AList fun _ : α => β)
    : Sub (retain p t) t := by
  apply sub_foldl
  intro t s
  split
  . exact fun _ _ h => h
  . exact sub_erase t s.1

theorem sub_evictHeights (heights : List UInt64) (pool : OrphanBlockPool)
    : Sub (evictHeights heights pool).orphans pool.orphans := by
  induction heights generalizing pool with
  | nil => exact fun _ _ h => h
  | cons height heights ih =>
    have hdrop := sub_foldl (fun t hash => sub_erase t hash)
      ((pool.heightIdx.lookup height).getD []) pool.orphans
    unfold evictHeights
    dsimp only
    split
    . exact hdrop
    . exact fun a x h => hdrop a x (ih _ a x h)

theorem sub_add (env : Env) (now : Nat) (pool : OrphanBlockPool) (orphan : Orphan)
    : Sub (pool.add env now orphan).orphans
        (pool.orphans.insert (orphan.block.hash env) orphan) := by
  unfold add
  dsimp only
  split
  . intro a x h
    exact sub_retain _ _ a x (sub_evictHeights _ _ a x h)
  . exact fun _ _ h => h

theorem sub_removeAll (hs : List Hash) (pool : OrphanBlockPool)
    : Sub (removeAll hs pool).2.orphans pool.orphans
        ∧
      ∀ orphan ∈ (removeAll hs pool).1, ∃ hash, pool.orphans.lookup hash = some orphan := by
  induction hs generalizing pool with
  | nil => exact ⟨fun _ _ h => h, by simp [removeAll]⟩
  | cons h hs ih =>
    obtain ⟨hsub, hmem⟩ := ih { pool with orphans := pool.orphans.erase h }
    have hpool : Sub (removeAll (h :: hs) pool).2.orphans pool.orphans := by
      intro a x hx
      apply sub_erase pool.orphans h
      apply hsub
      unfold removeAll at hx
      dsimp only at hx
      split at hx <;> exact hx
    have hrest : ∀ orphan ∈ (removeAll hs { pool with orphans := pool.orphans.erase h }).1,
        ∃ hash, pool.orphans.lookup hash = some orphan := by
      intro orphan horphan
      obtain ⟨hash, hlookup⟩ := hmem orphan horphan
      exact ⟨hash, sub_erase pool.orphans h hash orphan hlookup⟩
    refine ⟨hpool, ?_⟩
    unfold removeAll
    dsimp only
    split
    . next orphan horphan => exact List.forall_mem_cons.mpr ⟨⟨h, horphan⟩, hrest⟩
    . exact hrest

end OrphanBlockPool

namespace Chain

-- what calls consist of: one block, one list of headers, or orphans taken out of the pool
inductive Step (env : Env) (c : Chain) : Option Pipe.Ctx → Chain → Prop where
  | block (clock : Clock) (b : Block) (opts : Options)
    (h : (c.processBlockSingle env clock b opts).1.Returns)
    : Step env c (c.newCtx clock opts) (c.processBlockSingle env clock b opts).2
  | headers (clock : Clock) (headers : List BlockHeader) (opts : Options)
    (h : (c.syncBlockHeaders env clock headers opts).1.Returns)
    : Step env c (c.newCtx clock opts) (c.syncBlockHeaders env clock headers opts).2
  | orphans (height : UInt64) : Step env c none (takeOrphans height c).2
  | syncHead : Step env c none c.resetSyncHead.2

abbrev Path (env : Env) : Chain → Chain → Prop := Relation.ReflTransGen fun c c' => ∃ ctx, Step env c ctx c'

-- a call on the way validated the header, before or after it stored the headers
def WasValidated (env : Env) (start c : Chain) (header : BlockHeader) : Prop :=
  ∃ c₁ ctx c₂, Path env start c₁ ∧ Step env c₁ (some ctx) c₂ ∧ Path env c₂ c
    ∧ (Pipe.validateHeader env ctx c₁.store.headers header = .ok ()
      ∨ Pipe.validateHeader env ctx c₂.store.headers header = .ok ())

def Backed (env : Env) (genesis : BlockHeader) (start c : Chain) (tip : Option Tip) : Prop :=
  ∃ t header,
    tip = some t
      ∧
    c.store.headers.getBlockHeader t.lastBlockH = some header
      ∧
    header.height = t.height
      ∧
    header.prevHash = t.prevBlockH
      ∧
    header.totalDifficulty = t.totalDifficulty
      ∧
    (header = genesis ∨ WasValidated env start c header)

def Call.headers (call : Call) : List BlockHeader :=
  match call with
  | .processBlock _ b _ => [b.header]
  | .syncBlockHeaders _ headers _ => headers
  | .resetSyncHead => []
  | .compact => []

-- among these headers the hash determines what a tip carries
def Determined (env : Env) (headers : List BlockHeader) : Prop :=
  ∀ h ∈ headers, ∀ h' ∈ headers, h.hash env = h'.hash env
    → h.height = h'.height ∧ h.prevHash = h'.prevHash ∧ h.totalDifficulty = h'.totalDifficulty

instance (env : Env) (headers : List BlockHeader) : Decidable (Determined env headers) :=
  inferInstanceAs (Decidable (∀ h ∈ headers, ∀ h' ∈ headers, h.hash env = h'.hash env
    → h.height = h'.height ∧ h.prevHash = h'.prevHash ∧ h.totalDifficulty = h'.totalDifficulty))

end Chain

namespace HeaderDb

def Knows (db db' : HeaderDb) : Prop := ∀ k, (db.lookup k).isSome → (db'.lookup k).isSome

theorem knows_saveBlockHeader (env : Env) (db : HeaderDb) (header : BlockHeader)
    : Knows db (db.saveBlockHeader env header) := by
  intro k hk
  unfold saveBlockHeader
  by_cases heq : k = header.hash env
  . rw [heq, AList.lookup_insert]
    rfl
  . rwa [AList.lookup_insert_ne heq]

theorem isSome_saveBlockHeader (env : Env) (db : HeaderDb) (header : BlockHeader)
    : ((db.saveBlockHeader env header).lookup (header.hash env)).isSome := by
  unfold saveBlockHeader
  rw [AList.lookup_insert]
  rfl

end HeaderDb

namespace Pipe

theorem saveHeaders_spec (env : Env) (headers : List BlockHeader) (batch : Batch)
    : (∀ k h, (saveHeaders env headers batch).db.headers.lookup k = some h
        → batch.db.headers.lookup k = some h ∨ h ∈ headers ∧ h.hash env = k)
        ∧
      batch.db.headers.Knows (saveHeaders env headers batch).db.headers
        ∧
      (∀ h ∈ headers, ((saveHeaders env headers batch).db.headers.lookup (h.hash env)).isSome)
        ∧
      (saveHeaders env headers batch).db.head = batch.db.head
        ∧
      (saveHeaders env headers batch).db.headerHead = batch.db.headerHead := by
  induction headers generalizing batch with
  | nil => exact ⟨fun _ _ h => .inl h, fun _ h => h, by simp, rfl, rfl⟩
  | cons header headers ih =>
    obtain ⟨hlookup, hknows, hsaved, hhead, hheaderHead⟩ := ih (batch.saveBlockHeader env header)
    refine ⟨?_, ?_, ?_, hhead, hheaderHead⟩
    . intro k h hk
      rcases hlookup k h hk with hold | ⟨hmem, hhash⟩
      . rcases HeaderDb.lookup_saveBlockHeader hold with hold | ⟨rfl, hhash⟩
        . exact .inl hold
        . exact .inr ⟨List.mem_cons_self, hhash⟩
      . exact .inr ⟨List.mem_cons_of_mem header hmem, hhash⟩
    . intro k hk
      exact hknows k (HeaderDb.knows_saveBlockHeader env batch.db.headers header k hk)
    . refine List.forall_mem_cons.mpr ⟨?_, hsaved⟩
      exact hknows _ (HeaderDb.isSome_saveBlockHeader env batch.db.headers header)

end Pipe

namespace Chain

-- a tip taken from a submitted header, whose hash the store knows
def TipOf (env : Env) (submitted : List BlockHeader) (db : HeaderDb) (tip : Option Tip) : Prop :=
  ∃ h ∈ submitted, tip = some (.fromHeader env h) ∧ (db.lookup (h.hash env)).isSome

theorem TipOf.mono
    (h : TipOf env submitted db tip) (hknows : db.Knows db')
    : TipOf env submitted db' tip := by
  obtain ⟨header, hmem, htip, hsome⟩ := h
  exact ⟨header, hmem, htip, hknows _ hsome⟩

theorem TipOf.betterTip (h : TipOf env submitted db tip) (hmem : header ∈ submitted)
    (hsome : (db.lookup (header.hash env)).isSome)
    : TipOf env submitted db (Pipe.betterTip env tip header) := by
  obtain ⟨old, hold, htip, hsome'⟩ := h
  rw [htip]
  unfold Pipe.betterTip
  dsimp only
  split
  . exact ⟨header, hmem, rfl, hsome⟩
  . exact ⟨old, hold, rfl, hsome'⟩

structure Sound (env : Env) (submitted : List BlockHeader) (genesis : BlockHeader) (start c : Chain)
    : Prop where
  path : Path env start c
  settled : c.Settled
  stored : ∀ k h, c.store.headers.lookup k = some h
    → h.hash env = k ∧ h ∈ submitted ∧ (h = genesis ∨ WasValidated env start c h)
  head : TipOf env submitted c.store.headers c.store.head
  headerHead : TipOf env submitted c.store.headers c.store.headerHead
  syncHead : TipOf env submitted c.store.headers c.store.syncHead
  orphans : ∀ hash orphan, c.orphans.orphans.lookup hash = some orphan
    → orphan.block.header ∈ submitted

section

variable {env : Env} {submitted : List BlockHeader} {genesis : BlockHeader} {start c c' : Chain}

theorem Sound.backed (h : Sound env submitted genesis start c) (hdet : Determined env submitted)
    (htip : TipOf env submitted c.store.headers tip)
    : Backed env genesis start c tip := by
  obtain ⟨header, hmem, rfl, hsome⟩ := htip
  obtain ⟨stored, hstored⟩ := Option.isSome_iff_exists.mp hsome
  obtain ⟨hhash, hmem', hvalid⟩ := h.stored _ stored hstored
  obtain ⟨hheight, hprev, hdifficulty⟩ := hdet stored hmem' header hmem hhash
  exact ⟨_, stored, rfl, hstored, hheight, hprev, hdifficulty, hvalid⟩

theorem Sound.stored_of_step (h : Sound env submitted genesis start c) (hstep : Step env c ctx c')
    (hadded : ∀ k header, c'.store.headers.lookup k = some header
      → c.store.headers.lookup k = some header
        ∨ header.hash env = k ∧ header ∈ submitted
          ∧ ∃ ctx' ∈ ctx, Pipe.validateHeader env ctx' c.store.headers header = .ok ()
            ∨ Pipe.validateHeader env ctx' c'.store.headers header = .ok ())
    : ∀ k header, c'.store.headers.lookup k = some header
      → header.hash env = k ∧ header ∈ submitted
        ∧ (header = genesis ∨ WasValidated env start c' header) := by
  intro k header hk
  rcases hadded k header hk with hold | ⟨hhash, hmem, ctx', rfl, hvalid⟩
  . obtain ⟨hhash, hmem, hvalid⟩ := h.stored k header hold
    refine ⟨hhash, hmem, hvalid.imp_right ?_⟩
    rintro ⟨c₁, ctx', c₂, hstart, hcall, hc, hvalid⟩
    exact ⟨c₁, ctx', c₂, hstart, hcall, hc.tail ⟨ctx, hstep⟩, hvalid⟩
  . exact ⟨hhash, hmem, .inr ⟨c, ctx', c', h.path, hstep, .refl, hvalid⟩⟩

theorem Sound.processBlockSingle (h : Sound env submitted genesis start c) (clock : Clock) (opts : Options)
    (hmem : b.header ∈ submitted)
    (hreturns : (c.processBlockSingle env clock b opts).1.Returns)
    : Sound env submitted genesis start (c.processBlockSingle env clock b opts).2 := by
  have hstep := Step.block clock b opts hreturns
  have hsettled := settled_processBlockSingle h.settled env clock b opts
  rcases hres : c.processBlockSingle env clock b opts with ⟨(tip | e | _ | _), c'⟩
  . rw [hres] at hstep hsettled
    obtain ⟨old, st, -, hpipe, rfl⟩ := processBlockSingle_eq_ok hres
    have hst : c.state.trees.Settled := h.settled
    obtain ⟨isFork, mid, headHeader, ext, haccepted⟩ := Pipe.processBlock_eq_ok hst hpipe
    obtain ⟨hheaders, hhead, hheaderHead, hsyncHead⟩ := haccepted.tips hst
    have hknows := HeaderDb.knows_saveBlockHeader env c.store.headers b.header
    have hsome := HeaderDb.isSome_saveBlockHeader env c.store.headers b.header
    refine ⟨h.path.tail ⟨_, hstep⟩, hsettled, h.stored_of_step hstep ?_, ?_, ?_, ?_, h.orphans⟩
    . intro k header hk
      dsimp only [commit] at hk
      rw [hheaders] at hk
      rcases HeaderDb.lookup_saveBlockHeader hk with hold | ⟨rfl, hhash⟩
      . exact .inl hold
      . exact .inr ⟨hhash, hmem, _, rfl, .inl haccepted.valid⟩
    . dsimp only [commit]
      rw [hheaders, hhead]
      exact (h.head.mono hknows).betterTip hmem hsome
    . dsimp only [commit]
      rw [hheaders, hheaderHead]
      exact (h.headerHead.mono hknows).betterTip hmem hsome
    . dsimp only [commit]
      rw [hheaders, hsyncHead]
      exact h.syncHead.mono hknows
  . rw [hres] at hstep hsettled
    obtain ⟨trees, -, -, rfl⟩ := processBlockSingle_eq_err h.settled hres
    refine ⟨h.path.tail ⟨_, hstep⟩, hsettled, h.stored_of_step hstep (fun _ _ hk => .inl hk), h.head,
      h.headerHead, h.syncHead, ?_⟩
    intro hash orphan hlookup
    dsimp only [keepOrphan] at hlookup
    split at hlookup
    . have hinsert := OrphanBlockPool.sub_add env clock.instant c.orphans _ hash orphan hlookup
      by_cases heq : hash = b.hash env
      . rw [heq, AList.lookup_insert] at hinsert
        injection hinsert with hinsert
        rw [← hinsert]
        exact hmem
      . rw [AList.lookup_insert_ne heq] at hinsert
        exact h.orphans hash orphan hinsert
    . exact h.orphans hash orphan hlookup
  . rw [hres] at hreturns
    simp at hreturns
  . rw [hres] at hreturns
    simp at hreturns

theorem syncBlockHeaders_store (h : Pipe.syncBlockHeaders env ctx headers st = (.ok tip, st'))
    (hne : st'.batch ≠ st.batch)
    : ∃ last ∈ headers,
        (∀ k header, st'.batch.db.headers.lookup k = some header
          → st.batch.db.headers.lookup k = some header
            ∨ header.hash env = k ∧ header ∈ headers
              ∧ Pipe.validateHeader env ctx st'.batch.db.headers header = .ok ())
          ∧
        st.batch.db.headers.Knows st'.batch.db.headers
          ∧
        (st'.batch.db.headers.lookup (last.hash env)).isSome
          ∧
        st'.batch.db.head = st.batch.db.head
          ∧
        st'.batch.db.headerHead = Pipe.betterTip env st.batch.db.headerHead last
          ∧
        st'.batch.db.syncHead = some (.fromHeader env last) := by
  rcases Pipe.syncBlockHeaders_eq_ok h with rfl | ⟨first, last, saved, hsynced⟩
  . contradiction
  . have hlast := List.mem_of_getLast? hsynced.isLast
    refine ⟨last, hlast, ?_⟩
    rw [hsynced.state]
    rcases hsynced.kept with ⟨rfl, hknown⟩ | ⟨-, hnew⟩
    . exact ⟨fun _ _ hk => .inl hk, fun _ hk => hk, hknown, rfl, rfl, rfl⟩
    . obtain ⟨hlookup, hknows, hsome, hhead, hheaderHead⟩ :=
        Pipe.saveHeaders_spec env headers st.batch
      rw [← hnew.batch] at hlookup hknows hsome hhead hheaderHead
      refine ⟨?_, hknows, hsome last hlast, hhead, congrArg (Pipe.betterTip env · last) hheaderHead, rfl⟩
      intro k header hk
      rcases hlookup k header hk with hold | ⟨hmem, hhash⟩
      . exact .inl hold
      . exact .inr ⟨hhash, hmem, hnew.valid header hmem⟩

theorem Sound.syncBlockHeaders (h : Sound env submitted genesis start c)
    (hmem : ∀ header ∈ headers, header ∈ submitted)
    (hreturns : (c.syncBlockHeaders env clock headers opts).1.Returns)
    : Sound env submitted genesis start (c.syncBlockHeaders env clock headers opts).2 := by
  have hstep := Step.headers clock headers opts hreturns
  have hsettled := settled_apply h.settled env (.syncBlockHeaders clock headers opts)
  change Settled (c.syncBlockHeaders env clock headers opts).2 at hsettled
  unfold Chain.syncBlockHeaders at hreturns hstep hsettled ⊢
  rcases hres : Pipe.syncBlockHeaders env (c.newCtx clock opts) headers c.state
    with ⟨(tip | e | _ | _), st⟩ <;> rw [hres] at hreturns hstep hsettled
  . by_cases hsame : st.batch = c.state.batch
    . have hstore : (c.commit st).store = c.store := congrArg Batch.db hsame
      refine ⟨h.path.tail ⟨_, hstep⟩, hsettled, h.stored_of_step hstep ?_, ?_, ?_, ?_, h.orphans⟩ <;>
        dsimp only <;> rw [hstore]
      . exact fun _ _ hk => .inl hk
      . exact h.head
      . exact h.headerHead
      . exact h.syncHead
    . obtain ⟨last, hlast, hadded, hknows, hsome, hhead, hheaderHead, hsyncHead⟩ :=
        syncBlockHeaders_store hres hsame
      refine ⟨h.path.tail ⟨_, hstep⟩, hsettled, h.stored_of_step hstep ?_, ?_, ?_, ?_, h.orphans⟩
      . intro k header hk
        rcases hadded k header hk with hold | ⟨hhash, hmem', hvalid⟩
        . exact .inl hold
        . exact .inr ⟨hhash, hmem header hmem', _, rfl, .inr hvalid⟩
      . dsimp only [commit]
        rw [hhead]
        exact h.head.mono hknows
      . dsimp only [commit]
        rw [hheaderHead]
        exact (h.headerHead.mono hknows).betterTip (hmem last hlast) hsome
      . exact ⟨last, hmem last hlast, hsyncHead, hsome⟩
  . exact ⟨h.path.tail ⟨_, hstep⟩, hsettled, h.stored_of_step hstep (fun _ _ hk => .inl hk), h.head,
      h.headerHead, h.syncHead, h.orphans⟩
  . simp at hreturns
  . simp at hreturns

theorem Sound.takeOrphans (h : Sound env submitted genesis start c) (height : UInt64)
    : Sound env submitted genesis start (Chain.takeOrphans height c).2
        ∧
      ∀ orphans c', Chain.takeOrphans height c = (.ok orphans, c')
        → ∀ orphan ∈ orphans, orphan.block.header ∈ submitted := by
  have hstep : Step env c none (Chain.takeOrphans height c).2 := .orphans height
  have hpool : OrphanBlockPool.Sub (c.orphans.removeByHeight height).2.orphans c.orphans.orphans
      ∧ ∀ orphan ∈ (c.orphans.removeByHeight height).1.getD [],
          ∃ hash, c.orphans.orphans.lookup hash = some orphan := by
    unfold OrphanBlockPool.removeByHeight
    split
    . next hs _ => exact OrphanBlockPool.sub_removeAll hs { c.orphans with heightIdx := _ }
    . exact ⟨fun _ _ h => h, by simp⟩
  refine ⟨⟨h.path.tail ⟨_, hstep⟩, h.settled, h.stored_of_step hstep (fun _ _ hk => .inl hk), h.head,
    h.headerHead, h.syncHead, ?_⟩, ?_⟩
  . intro hash orphan hlookup
    exact h.orphans hash orphan (hpool.1 hash orphan hlookup)
  . intro orphans c' heq orphan horphan
    unfold Chain.takeOrphans at heq
    simp only [Prod.mk.injEq, Outcome.ok.injEq] at heq
    rw [← heq.1] at horphan
    obtain ⟨hash, hlookup⟩ := hpool.2 orphan horphan
    exact h.orphans hash orphan hlookup

theorem Sound.processOrphans {clock : Clock} {orphans : List Orphan}
    {accepted : Option UInt64} {r : Outcome ErrorKind (Option UInt64)}
    (h : Sound env submitted genesis start c)
    (hmem : ∀ orphan ∈ orphans, orphan.block.header ∈ submitted)
    (hres : Chain.processOrphans env clock orphans accepted c = (r, c')) (hr : r.Returns)
    : Sound env submitted genesis start c' := by
  induction orphans generalizing accepted c with
  | nil =>
    simp only [Chain.processOrphans, pure_apply, Prod.mk.injEq] at hres
    rw [← hres.2]
    exact h
  | cons orphan orphans ih =>
    obtain ⟨horphan, hrest⟩ := List.forall_mem_cons.mp hmem
    have hsingle := h.processBlockSingle clock orphan.opts horphan
    unfold Chain.processOrphans at hres
    rcases hone : c.processBlockSingle env clock orphan.block orphan.opts
      with ⟨(tip | e | _ | _), c₁⟩ <;> rw [hone] at hres hsingle
    . exact ih (hsingle trivial) hrest hres
    . exact ih (hsingle trivial) hrest hres
    . simp only [Prod.mk.injEq] at hres
      rw [← hres.1] at hr
      contradiction
    . simp only [Prod.mk.injEq] at hres
      rw [← hres.1] at hr
      contradiction

theorem Sound.checkOrphans {clock : Clock} {fuel : Nat} {height : UInt64}
    {r : Outcome ErrorKind Unit} (h : Sound env submitted genesis start c)
    (hres : Chain.checkOrphans env clock fuel height c = (r, c')) (hr : r.Returns)
    : Sound env submitted genesis start c' := by
  induction fuel generalizing height c with
  | zero =>
    simp only [Chain.checkOrphans, lift_apply, Prod.mk.injEq] at hres
    rw [← hres.1] at hr
    contradiction
  | succ fuel ih =>
    obtain ⟨htaken, hmem⟩ := h.takeOrphans height
    obtain ⟨_, c₁, htake, -, rfl | ⟨orphans, rfl, hres⟩⟩ := bind_of_returns hres hr
    . rw [htake] at htaken
      exact htaken
    rw [htake] at htaken
    obtain ⟨_, c₂, hprocess, hreturns, hnext⟩ := bind_of_returns hres hr
    have hsound := htaken.processOrphans (hmem orphans c₁ htake) hprocess hreturns
    rcases hnext with rfl | ⟨accepted, rfl, hres⟩
    . exact hsound
    cases accepted with
    | none =>
      simp only [pure_apply, Prod.mk.injEq] at hres
      rw [← hres.2]
      exact hsound
    | some height =>
      obtain ⟨_, c₃, hnext, -, rfl | ⟨next, rfl, hres⟩⟩ := bind_of_returns hres hr
      . simp only [lift_apply, Prod.mk.injEq] at hnext
        rw [← hnext.2]
        exact hsound
      . rw [lift_eq_ok] at hnext
        rw [← hnext.2] at hres
        exact ih hsound hres

theorem Sound.processBlock (h : Sound env submitted genesis start c)
    (hmem : b.header ∈ submitted) (hres : c.processBlock env clock b opts = (r, c'))
    (hr : r.Returns)
    : Sound env submitted genesis start c' := by
  have hsingle := h.processBlockSingle clock opts hmem
  unfold Chain.processBlock at hres
  rcases hone : c.processBlockSingle env clock b opts with ⟨(tip | e | _ | _), c₁⟩ <;>
    rw [hone] at hres hsingle
  . have hsound := hsingle trivial
    have hafter : ∀ {r c₂}, checkOrphansAfter env clock b.header.height c₁ = (r, c₂) → r.Returns
        → Sound env submitted genesis start c₂ := by
      intro r c₂ hres hr
      obtain ⟨_, c₃, hnext, -, rfl | ⟨next, rfl, hres⟩⟩ := bind_of_returns hres hr
      . simp only [lift_apply, Prod.mk.injEq] at hnext
        rw [← hnext.2]
        exact hsound
      . rw [lift_eq_ok] at hnext
        rw [← hnext.2] at hres
        exact hsound.checkOrphans hres hr
    obtain ⟨_, c₂, hcheck, hreturns, rfl | ⟨⟨⟩, -, hpure⟩⟩ := bind_of_returns hres hr
    . exact hafter hcheck hreturns
    . simp only [pure_apply, Prod.mk.injEq] at hpure
      rw [← hpure.2]
      exact hafter hcheck hreturns
  . simp only [Prod.mk.injEq] at hres
    rw [← hres.2]
    exact hsingle trivial
  . simp only [Prod.mk.injEq] at hres
    rw [← hres.1] at hr
    contradiction
  . simp only [Prod.mk.injEq] at hres
    rw [← hres.1] at hr
    contradiction

theorem Sound.apply {call : Call} (h : Sound env submitted genesis start c)
    (hmem : ∀ header ∈ call.headers, header ∈ submitted) (hcompact : call ≠ .compact)
    (hreturns : (call.apply env c).1.Returns)
    : Sound env submitted genesis start (call.apply env c).2 := by
  cases call with
  | processBlock clock b opts =>
    have hreturns' : (c.processBlock env clock b opts).1.Returns :=
      (Outcome.returns_bind.mp hreturns).1
    exact h.processBlock (hmem b.header List.mem_cons_self) rfl hreturns'
  | syncBlockHeaders clock headers opts => exact h.syncBlockHeaders hmem hreturns
  | resetSyncHead =>
    have hstep : Step env c none c.resetSyncHead.2 := .syncHead
    change Sound env submitted genesis start c.resetSyncHead.2
    unfold Chain.resetSyncHead at hstep ⊢
    cases hhead : c.store.batch.headerHead with
    | ok head =>
      rw [hhead] at hstep
      refine ⟨h.path.tail ⟨_, hstep⟩, h.settled, h.stored_of_step hstep fun _ _ hk => .inl hk, h.head,
        h.headerHead, ?_, h.orphans⟩
      have hsome : c.store.headerHead = some head := Outcome.okOr_eq_ok.mp hhead
      dsimp only [Batch.saveSyncHead]
      rw [← hsome]
      exact h.headerHead
    | err e => exact h
    | panic => exact h
    | hang => exact h
  | compact => contradiction

theorem init_store {powVerifier : BlockHeader → Bool} {archiveMode : Bool} {genesis : Block}
    (h : init env powVerifier archiveMode genesis = .ok c)
    : c.store.headers = HeaderDb.saveBlockHeader env ∅ genesis.header
        ∧
      c.store.head = some (.fromHeader env genesis.header)
        ∧
      c.store.headerHead = some (.fromHeader env genesis.header)
        ∧
      c.store.syncHead = some (.fromHeader env genesis.header)
        ∧
      c.orphans = .new := by
  obtain ⟨sums, ext, hstarts⟩ := init_eq_ok h
  have hframe := hstarts.frame
  rw [hstarts.store]
  exact ⟨hframe.headers, hframe.head, hframe.headerHead, rfl, hstarts.orphans⟩

theorem Sound.init {powVerifier : BlockHeader → Bool} {archiveMode : Bool} {genesis : Block}
    (h : Chain.init env powVerifier archiveMode genesis = .ok c)
    (hmem : genesis.header ∈ submitted)
    : Sound env submitted genesis.header c c := by
  obtain ⟨hheaders, hhead, hheaderHead, hsyncHead, horphans⟩ := init_store h
  have htip : TipOf env submitted c.store.headers (some (.fromHeader env genesis.header)) := by
    rw [hheaders]
    exact ⟨genesis.header, hmem, rfl, HeaderDb.isSome_saveBlockHeader env ∅ genesis.header⟩
  refine ⟨.refl, settled_init h, ?_, hhead ▸ htip, hheaderHead ▸ htip, hsyncHead ▸ htip, ?_⟩
  . intro k header hk
    rw [hheaders] at hk
    rcases HeaderDb.lookup_saveBlockHeader hk with hold | ⟨rfl, hhash⟩
    . simp at hold
    . exact ⟨hhash, hmem, .inl rfl⟩
  . intro hash orphan hlookup
    rw [horphans] at hlookup
    simp [OrphanBlockPool.new] at hlookup

theorem tips_backed {powVerifier : BlockHeader → Bool} {archiveMode : Bool} {genesis : Block}
    {calls : List Call} (hinit : init env powVerifier archiveMode genesis = .ok start)
    (hcompact : .compact ∉ calls)
    (hdet : Determined env (genesis.header :: calls.flatMap Call.headers))
    (hrun : start.run env calls = some c)
    : Backed env genesis.header start c c.store.head
        ∧
      Backed env genesis.header start c c.store.headerHead
        ∧
      Backed env genesis.header start c c.store.syncHead := by
  have hsound : Sound env (genesis.header :: calls.flatMap Call.headers) genesis.header start c := by
    apply run_invariant _ (.init hinit List.mem_cons_self) hrun
    intro call hcall c hc hreturns
    refine hc.apply ?_ ?_ hreturns
    . intro header hheader
      exact List.mem_cons_of_mem _ (List.mem_flatMap.mpr ⟨call, hcall, hheader⟩)
    . rintro rfl
      exact hcompact hcall
  exact ⟨hsound.backed hdet hsound.head, hsound.backed hdet hsound.headerHead,
    hsound.backed hdet hsound.syncHead⟩

end

namespace Sample

def twoCalls : List Call :=
  [.processBlock clock firstBlock .none, .syncBlockHeaders clock [firstBlock.header] .none]

-- a header with the hash of the genesis header, which does not cover the height and the difficulty
def forged : BlockHeader :=
  { genesis.header with
    height := 5
    pow := { genesis.header.pow with totalDifficulty := .fromNum 1000 } }

end Sample

open Sample in
theorem tips_backed_twoCalls
    : ∃ c, start.run env twoCalls = some c
        ∧
      Backed env Sample.genesis.header start c c.store.head
        ∧
      Backed env Sample.genesis.header start c c.store.headerHead
        ∧
      Backed env Sample.genesis.header start c c.store.syncHead := by
  have hrun : (start.run env twoCalls).isSome := by decide +kernel
  obtain ⟨c, hc⟩ := Option.isSome_iff_exists.mp hrun
  exact ⟨c, hc, tips_backed init_start (by simp [twoCalls]) (by decide) hc⟩

open Sample in
theorem forged_tip_not_backed
    : (start.syncBlockHeaders env clock [forged] .none).1 = .ok ()
        ∧
      (start.syncBlockHeaders env clock [forged] .none).2.store.headerHead
        = some (.fromHeader env forged)
        ∧
      (start.syncBlockHeaders env clock [forged] .none).2.store.syncHead
        = some (.fromHeader env forged)
        ∧
      (Tip.fromHeader env forged).height = 5
        ∧
      (start.syncBlockHeaders env clock [forged] .none).2.store.headers.entries.map (·.2.height)
        = [0] := by
  decide

end Chain

end Epic
