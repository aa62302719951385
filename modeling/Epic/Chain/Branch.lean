import Epic.Chain.Pipe.Fork
import Epic.Chain.Run

/-!
This module contains the tree of blocks that a chain stores, the branch of it that the mountain ranges
hold, and what a call to `process_block_single` does to the two.
-/

namespace Epic

open Routine

structure ChainStore.Tree (env : Env) (store : ChainStore) (genesis : Block) : Prop where
  keyed : ∀ h b, store.blocks.lookup h = some b → b.hash env = h
  header : ∀ h, store.headers.getBlockHeader h = (store.blocks.lookup h).map (·.header)
  branch : ∀ h b, store.blocks.lookup h = some b →
    ∃ branch, store.Branch env genesis branch ∧ branch.getLast? = some b

namespace ChainStore

variable {env : Env} {store store' : ChainStore} {genesis b : Block} {branch q : List Block}

theorem Branch.of_stored (h : store.Branch env genesis branch)
    (hheaders : ∀ fb ∈ branch, store'.headers.getBlockHeader (fb.hash env) = some fb.header)
    (hblocks : ∀ fb ∈ branch, store'.blocks.lookup (fb.hash env) = some fb)
    : store'.Branch env genesis branch := by
  refine ⟨h.headers.of_stored ?_, hblocks, h.isFirst, h.recorded⟩
  intro header hheader
  obtain ⟨fb, hfb, rfl⟩ := List.mem_map.mp hheader
  exact hheaders fb hfb

theorem Branch.getBlockHeader (h : store.Branch env genesis branch) (hfb : fb ∈ branch)
    : store.headers.getBlockHeader (fb.hash env) = some fb.header :=
  h.headers.stored fb.header (List.mem_map_of_mem hfb)

theorem Branch.saveHeader (h : store.Branch env genesis branch)
    (hfresh : store.blocks.lookup (header.hash env) = none)
    (hheaders : store'.headers = store.headers.saveBlockHeader env header)
    (hblocks : store'.blocks = store.blocks)
    : store'.Branch env genesis branch := by
  apply h.of_stored
  . intro fb hfb
    have hne : fb.hash env ≠ header.hash env := by
      intro heq
      rw [← heq, h.blocks fb hfb] at hfresh
      contradiction
    rw [hheaders]
    unfold HeaderDb.saveBlockHeader HeaderDb.getBlockHeader
    rw [AList.lookup_insert_ne hne]
    exact h.getBlockHeader hfb
  . intro fb hfb
    rw [hblocks]
    exact h.blocks fb hfb

structure Grows (env : Env) (genesis : Block) (store store' : ChainStore) (q : List Block) (b : Block)
    : Prop where
  headers : store'.headers = store.headers.saveBlockHeader env b.header
  blocks : store'.blocks = store.blocks.insert (b.hash env) b
  fresh : store.blocks.lookup (b.hash env) = none
  side : store.Branch env genesis q
  parent : ∃ prev, q.getLast? = some prev ∧ b.header.prevHash = prev.hash env
  height : b.header.height.toNat = q.length
  recorded : Recorded (q ++ [b]) q.length b

namespace Grows

theorem lookup_ne (h : Grows env genesis store store' q b) {hash : Hash} (hne : hash ≠ b.hash env)
    : store'.blocks.lookup hash = store.blocks.lookup hash := by
  rw [h.blocks, AList.lookup_insert_ne hne]

theorem lookup_self (h : Grows env genesis store store' q b)
    : store'.blocks.lookup (b.hash env) = some b := by
  rw [h.blocks, AList.lookup_insert]

theorem getBlockHeader_ne (h : Grows env genesis store store' q b) {hash : Hash}
    (hne : hash ≠ b.hash env)
    : store'.headers.getBlockHeader hash = store.headers.getBlockHeader hash := by
  rw [h.headers]
  exact AList.lookup_insert_ne hne

theorem getBlockHeader_self (h : Grows env genesis store store' q b)
    : store'.headers.getBlockHeader (b.hash env) = some b.header := by
  rw [h.headers]
  exact AList.lookup_insert _

theorem ne_of_lookup (h : Grows env genesis store store' q b) {hash : Hash} {fb : Block}
    (hfb : store.blocks.lookup hash = some fb)
    : hash ≠ b.hash env := by
  rintro rfl
  rw [h.fresh] at hfb
  contradiction

theorem keeps (h : Grows env genesis store store' q b) (hbranch : store.Branch env genesis branch)
    : store'.Branch env genesis branch := by
  apply hbranch.of_stored
  . intro fb hfb
    rw [h.getBlockHeader_ne (h.ne_of_lookup (hbranch.blocks fb hfb))]
    exact hbranch.getBlockHeader hfb
  . intro fb hfb
    rw [h.lookup_ne (h.ne_of_lookup (hbranch.blocks fb hfb))]
    exact hbranch.blocks fb hfb

theorem concat (h : Grows env genesis store store' q b)
    : store'.Branch env genesis (q ++ [b]) := by
  have hq := h.keeps h.side
  obtain ⟨prev, hprev, hlink⟩ := h.parent
  refine ⟨?_, ?_, ?_, ?_⟩
  . rw [headersOf_concat]
    have hlast : (headersOf q).getLast? = some prev.header := by simp [headersOf, hprev]
    apply hq.headers.concat hlast hlink h.getBlockHeader_self
    rw [h.height]
    simp [headersOf]
  . intro fb hfb
    rcases List.mem_append.mp hfb with hmem | hmem
    . exact hq.blocks fb hmem
    . rw [List.mem_singleton.mp hmem]
      exact h.lookup_self
  . rw [List.head?_append, hq.isFirst]
    rfl
  . exact hq.recorded.concat h.recorded

theorem tree (h : Grows env genesis store store' q b) (htree : store.Tree env genesis)
    : store'.Tree env genesis where
  keyed := by
    intro hash fb hfb
    by_cases heq : hash = b.hash env
    . rw [heq, h.lookup_self, Option.some.injEq] at hfb
      rw [heq, hfb]
    . rw [h.lookup_ne heq] at hfb
      exact htree.keyed hash fb hfb
  header := by
    intro hash
    by_cases heq : hash = b.hash env
    . rw [heq, h.lookup_self, h.getBlockHeader_self]
      rfl
    . rw [h.lookup_ne heq, h.getBlockHeader_ne heq]
      exact htree.header hash
  branch := by
    intro hash fb hfb
    by_cases heq : hash = b.hash env
    . rw [heq, h.lookup_self, Option.some.injEq] at hfb
      rw [← hfb]
      exact ⟨q ++ [b], h.concat, List.getLast?_concat⟩
    . rw [h.lookup_ne heq] at hfb
      obtain ⟨branch, hbranch, hlast⟩ := htree.branch hash fb hfb
      exact ⟨branch, h.keeps hbranch, hlast⟩

end Grows

theorem Branch.take (h : store.Branch env genesis branch) (hn : 0 < n)
    : store.Branch env genesis (branch.take n) := by
  refine ⟨?_, fun fb hfb => h.blocks fb (List.mem_of_mem_take hfb), ?_, h.recorded.take n⟩
  . rw [headersOf_take]
    exact h.headers.take n
  . rw [List.head?_take, if_neg (by omega)]
    exact h.isFirst

-- a property of the branch that ends in a block, for every stored block
def EachBlock (env : Env) (genesis : Block) (store : ChainStore) (P : List Block → Block → Prop)
    : Prop :=
  ∀ h b, store.blocks.lookup h = some b →
    ∃ branch, store.Branch env genesis branch ∧ branch.getLast? = some b ∧ P branch b

theorem EachBlock.of_branch
    (h : EachBlock env genesis store P) (hbranch : store.Branch env genesis branch)
    (hb : branch[n]? = some b)
    : P (branch.take (n + 1)) b := by
  obtain ⟨q, hq, hlast, hP⟩ := h _ b (hbranch.blocks b (List.mem_of_getElem? hb))
  obtain ⟨hlt, -⟩ := List.getElem?_eq_some_iff.mp hb
  have hlast' : (branch.take (n + 1)).getLast? = some b := by
    rw [List.getLast?_eq_getElem?, List.length_take, Nat.min_eq_left hlt, Nat.succ_sub_one,
      List.getElem?_take_of_lt (Nat.lt_succ_self n)]
    exact hb
  rw [hq.eq_of_getLast (hbranch.take (Nat.succ_pos n)) hlast hlast']
  exact hP

theorem EachBlock.grows {P P' : List Block → Block → Prop} (h : EachBlock env genesis store P)
    (hgrows : Grows env genesis store store' q b)
    (hP : ∀ branch fb, fb.hash env ≠ b.hash env → P branch fb → P' branch fb)
    (hb : P' (q ++ [b]) b)
    : EachBlock env genesis store' P' := by
  intro hash fb hfb
  by_cases heq : hash = b.hash env
  . rw [heq, hgrows.lookup_self, Option.some.injEq] at hfb
    subst hfb
    exact ⟨q ++ [b], hgrows.concat, List.getLast?_concat, hb⟩
  . rw [hgrows.lookup_ne heq] at hfb
    obtain ⟨branch, hbranch, hlast, hfb'⟩ := h hash fb hfb
    have hne := hgrows.ne_of_lookup (hbranch.blocks fb (List.mem_of_getLast? hlast))
    exact ⟨branch, hgrows.keeps hbranch, hlast, hP branch fb hne hfb'⟩

end ChainStore

namespace Chain

variable {env : Env} {genesis b : Block} {c c' : Chain} {branch : List Block}

structure OnBranch (env : Env) (genesis : Block) (c : Chain) (branch : List Block) : Prop where
  settled : c.Settled
  tree : c.store.Tree env genesis
  main : c.store.Branch env genesis branch
  head : c.store.head = branch.getLast?.map fun b => .fromHeader env b.header
  holds : c.txhashset.Holds env branch

theorem OnBranch.exists_getLast (h : OnBranch env genesis c branch)
    : ∃ last, branch.getLast? = some last := by
  have hne : branch ≠ [] := by
    rintro rfl
    have := h.main.isFirst
    contradiction
  exact ⟨branch.getLast hne, List.getLast?_eq_some_getLast hne⟩

theorem OnBranch.headersOf_ne (h : OnBranch env genesis c branch)
    : headersOf branch ≠ [] := by
  obtain ⟨last, hlast⟩ := h.exists_getLast
  rintro hnil
  rw [headersOf, List.map_eq_nil_iff] at hnil
  rw [hnil] at hlast
  contradiction

theorem eq_of_headerUnseen (hsettled : c.Settled)
    (htracks : c.txhashset.headerPmmr.Tracks env headers) (hne : headers ≠ [])
    (hunseen : Pipe.HeaderUnseen c.state ⟨trees, c.store.batch⟩)
    : trees = c.txhashset := by
  have htrees : trees = { c.txhashset with headerPmmr := trees.headerPmmr } := hunseen.trees
  have hpmmr : trees.headerPmmr = c.txhashset.headerPmmr := by
    rcases hunseen.restored with heq | ⟨p, hpending, heq⟩
    . exact heq
    . exact heq.trans (htracks.discard_eq hsettled.headerPmmr hne hpending)
  rw [htrees, hpmmr]

theorem OnBranch.eq_of_headerUnseen (h : OnBranch env genesis c branch)
    (hunseen : Pipe.HeaderUnseen c.state ⟨trees, c.store.batch⟩)
    : trees = c.txhashset :=
  Chain.eq_of_headerUnseen h.settled h.holds.tracks h.headersOf_ne hunseen

theorem OnBranch.headHeader (h : OnBranch env genesis c branch) {header headHeader : BlockHeader}
    (hfresh : c.store.blocks.lookup (header.hash env) = none)
    (hfound : (Pipe.headerBatch env c.store.batch header).headHeader = .ok headHeader)
    : branch.getLast?.map (·.header) = some headHeader := by
  obtain ⟨last, hlast⟩ := h.exists_getLast
  obtain ⟨tip, htip, hfound⟩ := Outcome.bind_eq_ok.mp hfound
  rw [Batch.head, Outcome.okOr_eq_ok] at htip
  rw [Batch.getBlockHeader, Outcome.okOr_eq_ok] at hfound
  have hhead : c.store.head = some tip := htip
  rw [h.head, hlast] at hhead
  injection hhead with hhead
  have hsaved : (Pipe.headerBatch env c.store.batch header).db.Branch env genesis branch :=
    h.main.saveHeader hfresh rfl rfl
  have hlookup := hsaved.getBlockHeader (List.mem_of_getLast? hlast)
  rw [← hhead] at hfound
  rw [hlast, ← hfound]
  exact hlookup.symm

theorem fresh_of_checkKnown {orphans : OrphanBlockPool} {batch : Batch}
    (h : Pipe.checkKnown env orphans batch b = .ok ())
    : batch.committed.blocks.lookup (b.hash env) = none := by
  unfold Pipe.checkKnown Pipe.checkKnownStore at h
  simp only [Outcome.bind_eq_ok] at h
  obtain ⟨-, -, -, -, h⟩ := h
  split at h
  . obtain ⟨head, -, h⟩ := Outcome.bind_eq_ok.mp h
    split at h <;> contradiction
  . next hexists => simpa [Batch.blockExists, Block.hash] using hexists

def started (env : Env) (c : Chain) (b : Block) : ChainState :=
  ⟨c.txhashset, Pipe.headerBatch env c.store.batch b.header⟩

-- the height of a block does not wrap around to 0
def NoWrap (env : Env) (c : Chain) (b : Block) : Prop :=
  ∀ h, ∀ header : BlockHeader, c.store.headers.getBlockHeader h = some header →
    (MachineInt.add env.overflowChecks header.height 1 : Outcome ErrorKind UInt64)
      = .ok b.header.height →
    b.header.height ≠ 0

theorem OnBranch.joins (h : OnBranch env genesis c branch) (hwrap : c.NoWrap env b) {ctx : Pipe.Ctx}
    {orphans : OrphanBlockPool} {isFork : Bool}
    (hknown : Pipe.checkKnown env orphans c.store.batch b = .ok ())
    (horphan : Pipe.checkOrphan env c.store.batch b = .ok isFork)
    (hvalid : Pipe.validateHeader env ctx c.store.headers b.header = .ok ())
    : ∃ q,
        Pipe.Joins env (c.started env b) genesis branch q b isFork
          ∧
        c.store.Branch env genesis q
          ∧
        (∃ prev, q.getLast? = some prev ∧ b.header.prevHash = prev.hash env)
          ∧
        b.header.height.toNat = q.length := by
  have hfresh : c.store.blocks.lookup (b.header.hash env) = none := fresh_of_checkKnown hknown
  obtain ⟨-, prevHeader, hchecked⟩ := Pipe.validateHeader_eq_ok.mp hvalid
  have hparent := hchecked.parent
  unfold HeaderDb.getPreviousHeader at hparent
  have hheight := hwrap _ _ hparent hchecked.height
  rw [h.tree.header, Option.map_eq_some_iff] at hparent
  obtain ⟨prev, hprev, rfl⟩ := hparent
  have hhash := h.tree.keyed _ _ hprev
  obtain ⟨q, hq, hlast⟩ := h.tree.branch _ _ hprev
  have hlength : b.header.height.toNat = q.length := by
    rw [MachineInt.toNat_of_add_one hchecked.height hheight]
    exact (hq.length_eq hlast).symm
  have hsaved {branch : List Block} (hbranch : c.store.Branch env genesis branch)
      : (Pipe.headerBatch env c.store.batch b.header).db.Branch env genesis branch :=
    hbranch.saveHeader hfresh rfl rfl
  refine ⟨q, ⟨hsaved h.main, h.holds.tracks, hsaved hq, ?_, ?_⟩, hq, ⟨prev, hlast, hhash.symm⟩, hlength⟩
  . have hlookup := (hsaved hq).getBlockHeader (List.mem_of_getLast? hlast)
    rw [hlast, HeaderDb.getPreviousHeader, ← hhash]
    exact hlookup
  . intro hnext
    unfold Pipe.checkOrphan at horphan
    simp only [Outcome.bind_eq_ok, Batch.head, Outcome.okOr_eq_ok] at horphan
    obtain ⟨head, hhead, -, -, -, -, hisFork⟩ := horphan
    injection hisFork with hisFork
    rw [hnext, Bool.not_eq_false', decide_eq_true_eq] at hisFork
    obtain ⟨last, hmain⟩ := h.exists_getLast
    have hhead : c.store.head = some head := hhead
    rw [h.head, hmain] at hhead
    injection hhead with hhead
    have hsame : prev.hash env = last.hash env := by
      rw [hhash, hisFork, ← hhead]
      rfl
    have hprev' := hq.blocks prev (List.mem_of_getLast? hlast)
    rw [hsame, h.main.blocks last (List.mem_of_getLast? hmain), Option.some.injEq] at hprev'
    subst hprev'
    exact h.main.eq_of_getLast hq hmain hlast

structure Takes (env : Env) (genesis : Block) (c c' : Chain) (branch q : List Block) (b : Block)
    (isFork : Bool) (headHeader : BlockHeader) (ext : Extension) : Prop where
  joins : Pipe.Joins env (c.started env b) genesis branch q b isFork
  fresh : c.store.blocks.lookup (b.hash env) = none
  side : c.store.Branch env genesis q
  parent : ∃ prev, q.getLast? = some prev ∧ b.header.prevHash = prev.hash env
  height : b.header.height.toNat = q.length
  isHead : branch.getLast?.map (·.header) = some headHeader
  extended : Pipe.extendBlock env b isFork (.new (c.started env b) headHeader) = (.ok (), ext)
  chain : c' = c.commit
    (if ext.rollback then
      ⟨ext.discard c.txhashset, Pipe.blockBatch env (c.started env b).batch b⟩
    else
      ⟨ext.sync c.txhashset, Pipe.blockBatch env ext.batch b⟩)

theorem OnBranch.takes {clock : Clock} {opts : Options} {tip : Option Tip}
    (h : OnBranch env genesis c branch) (hwrap : c.NoWrap env b)
    (hok : c.processBlockSingle env clock b opts = (.ok tip, c'))
    : ∃ q isFork headHeader ext, Takes env genesis c c' branch q b isFork headHeader ext := by
  obtain ⟨old, st, -, hprocess, rfl⟩ := processBlockSingle_eq_ok hok
  have hsettled : c.state.trees.Settled := h.settled
  obtain ⟨isFork, mid, headHeader, ext, haccepted⟩ := Pipe.processBlock_eq_ok hsettled hprocess
  have hmid := h.eq_of_headerUnseen haccepted.unseen
  subst hmid
  have hfresh : c.store.blocks.lookup (b.hash env) = none := fresh_of_checkKnown haccepted.known
  obtain ⟨q, hjoins, hq, hparent, hlength⟩ :=
    h.joins hwrap haccepted.known haccepted.orphan haccepted.valid
  have hhead := h.headHeader hfresh haccepted.headFound
  refine ⟨q, isFork, headHeader, ext, hjoins, hfresh, hq, hparent, hlength, hhead,
    haccepted.extended, ?_⟩
  rw [haccepted.state]
  rfl

theorem OnBranch.rejects
    (h : OnBranch env genesis c branch) (hwrap : c.NoWrap env b)
    (herr : c.processBlockSingle env clock b opts = (.err e, c'))
    : c'.store = c.store ∧ c'.txhashset = c.txhashset := by
  obtain ⟨last, hlast⟩ := h.exists_getLast
  have hhead : c.store.head = some (.fromHeader env last.header) := by
    rw [h.head, hlast]
    rfl
  have hbatchHead : c.store.batch.head = .ok (.fromHeader env last.header) :=
    Outcome.okOr_eq_ok.mpr hhead
  unfold processBlockSingle at herr
  rw [hbatchHead] at herr
  dsimp only at herr
  split at herr
  . simp at herr
  . next e' st hprocess =>
    have hsettled : c.state.trees.Settled := h.settled
    have hstarted : (c.started env b).trees.Settled := h.settled
    have htrees : st.trees = c.txhashset := by
      rcases Pipe.processBlock_eq_err hsettled hhead hprocess
        with hunseen | ⟨isFork, mid, headHeader, ext, hrefused⟩
      . exact h.eq_of_headerUnseen hunseen
      . have hmid := h.eq_of_headerUnseen hrefused.unseen
        subst hmid
        obtain ⟨q, hjoins, -, -, -⟩ :=
          h.joins hwrap hrefused.known hrefused.orphan hrefused.valid
        have hrange : ext.InRange := by
          rw [← hrefused.extended]
          exact Pipe.extendBlock_inRange headHeader hstarted hjoins h.holds
        rw [hrefused.trees]
        exact (hrefused.pending hsettled).discard_eq hstarted h.holds hrange
    unfold rejectBlock at herr
    split at herr
    . rw [← (Prod.mk.inj herr).2]
      exact ⟨rfl, htrees⟩
    . rw [← (Prod.mk.inj herr).2]
      exact ⟨rfl, htrees⟩
    . rw [← (Prod.mk.inj herr).2]
      exact ⟨rfl, htrees⟩
  . simp at herr
  . simp at herr

theorem OnBranch.congr (h : OnBranch env genesis c branch) (hstore : c'.store = c.store)
    (htrees : c'.txhashset = c.txhashset)
    : OnBranch env genesis c' branch := by
  refine ⟨?_, ?_, ?_, ?_, ?_⟩
  . unfold Settled
    rw [htrees]
    exact h.settled
  . rw [hstore]
    exact h.tree
  . rw [hstore]
    exact h.main
  . rw [hstore]
    exact h.head
  . rw [htrees]
    exact h.holds

-- a call either takes the block in or leaves the store and the trees as they were
theorem OnBranch.processBlockSingle (h : OnBranch env genesis c branch) (hwrap : c.NoWrap env b)
    (hres : c.processBlockSingle env clock b opts = (res, c')) (hreturns : res.Returns)
    : (c'.Settled
        ∧ ∃ q isFork headHeader ext, Takes env genesis c c' branch q b isFork headHeader ext)
        ∨
      (c'.store = c.store ∧ c'.txhashset = c.txhashset) := by
  have hsettled := settled_processBlockSingle h.settled env clock b opts
  rw [hres] at hsettled
  cases res with
  | ok tip => exact .inl ⟨hsettled, h.takes hwrap hres⟩
  | err e => exact .inr (h.rejects hwrap hres)
  | panic => contradiction
  | hang => contradiction

structure Result (env : Env) (c c' : Chain) (q : List Block) (b : Block) (ext ext' : Extension)
    (sums : BlockSums) (head : Tip) : Prop where
  before : ext.Holds env q
  extended : Pipe.Extends env b ext ext' sums
  after : ext'.Holds env (q ++ [b])
  oldHead : c.store.head = some head
  frame : (c.started env b).batch.Frame ext'.batch
  chain : c' =
    if Pipe.hasMoreWork b.header head then
      c.commit ⟨ext'.sync c.txhashset, Pipe.blockBatch env ext'.batch b⟩
    else
      c.commit ⟨c.txhashset, Pipe.blockBatch env (c.started env b).batch b⟩

theorem Takes.result (h : OnBranch env genesis c branch)
    (htakes : Takes env genesis c c' branch q b isFork headHeader ext)
    (hI : Pipe.Carries env (c.started env b) headHeader branch q b I)
    : ∃ ext₀ ext₁ sums head,
        I q ext₀ ∧ I (q ++ [b]) ext₁ ∧ Result env c c' q b ext₀ ext₁ sums head := by
  have hsettled : (c.started env b).trees.Settled := h.settled
  have hcarries := hI.and (Pipe.carries_holdsBranch hsettled htakes.joins.main h.holds)
  obtain ⟨ext₀, ext₁, sums, head, ⟨hI₀, hbefore⟩, hextends, ⟨hI₁, hafter⟩, hhead, hext⟩ :=
    Pipe.extendBlock_eq_ok htakes.joins hcarries htakes.extended
  have hpending := Pipe.preserves_extendBlock hsettled env b isFork _ (.new hsettled headHeader)
  have hrange := Pipe.extendBlock_inRange headHeader hsettled htakes.joins h.holds
  rw [htakes.extended] at hpending hrange
  have hdiscard : ext.discard c.txhashset = c.txhashset :=
    hpending.discard_eq hsettled h.holds hrange
  have hframe : (c.started env b).batch.Frame ext₁.batch := by
    have hbatch := hpending.batch
    rw [hext] at hbatch
    exact hbatch
  refine ⟨ext₀, ext₁, sums, head, hI₀, hI₁, hbefore.holds, hextends, hafter.holds, ?_, hframe, ?_⟩
  . rw [← hhead]
    exact hframe.head.symm
  . rw [htakes.chain, hdiscard, hext, hafter.rollback]
    cases Pipe.hasMoreWork b.header head <;> rfl

theorem Takes.ne_nil
    (h : Takes env genesis c c' branch q b isFork headHeader ext)
    : q ≠ [] := by
  obtain ⟨prev, hprev, -⟩ := h.parent
  rintro rfl
  contradiction

theorem Takes.height_ne_zero (h : Takes env genesis c c' branch q b isFork headHeader ext)
    : b.header.height ≠ 0 := by
  intro hzero
  have hlength := h.height
  have hpos := List.length_pos_iff.mpr h.ne_nil
  rw [hzero, UInt64.toNat_zero] at hlength
  omega

section

variable {q : List Block} {isFork : Bool} {headHeader : BlockHeader} {ext ext₀ ext₁ : Extension}
  {sums : BlockSums} {head : Tip}

theorem Result.grows (h : Result env c c' q b ext₀ ext₁ sums head)
    (htakes : Takes env genesis c c' branch q b isFork headHeader ext)
    : c.store.Grows env genesis c'.store q b := by
  have hrecorded := h.extended.recorded htakes.height_ne_zero h.after
  refine ⟨?_, ?_, htakes.fresh, htakes.side, htakes.parent, htakes.height, hrecorded⟩
  . rw [h.chain]
    split
    . exact h.frame.headers
    . rfl
  . rw [h.chain]
    split
    . exact congrArg (AList.insert (b.hash env) b) h.frame.blocks
    . rfl

theorem Result.onBranch (h : Result env c c' q b ext₀ ext₁ sums head)
    (hc : OnBranch env genesis c branch)
    (htakes : Takes env genesis c c' branch q b isFork headHeader ext) (hsettled : c'.Settled)
    : OnBranch env genesis c' (if Pipe.hasMoreWork b.header head then q ++ [b] else branch) := by
  have hgrows := h.grows htakes
  have hhead : c'.store.head = Pipe.betterTip env c.store.head b.header := by
    rw [h.chain]
    split
    . exact congrArg (Pipe.betterTip env · b.header) h.frame.head
    . rfl
  have hold := h.oldHead
  have hchain := h.chain
  refine ⟨hsettled, hgrows.tree hc.tree, ?_, ?_, ?_⟩
  . split
    . exact hgrows.concat
    . exact hgrows.keeps hc.main
  . rw [hhead, hold]
    unfold Pipe.betterTip
    dsimp only
    split
    . rw [List.getLast?_concat]
      rfl
    . rw [← hold]
      exact hc.head
  . rw [hchain]
    split
    . exact h.after.sync
    . exact hc.holds

end

end Chain
end Epic
