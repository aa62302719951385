import Epic.Chain.Bitmaps
import Epic.Chain.TxHashSet.Validate

/-!
This module contains the start of a chain on files and a database that are already there, and what it
makes of files that are ahead of the database.
-/

namespace Epic

open Routine Pmmr

namespace Chain

def needsRebuild (env : Env) (head : Tip) (ext : HeaderExtension) : Bool :=
  match Epic.getHeaderByHeight ext.pmmr ext.batch head.height with
  | .ok header => decide (header.hash env ≠ head.lastBlockH)
  | _ => true

def checkHeaderMmr (env : Env) (genesis : BlockHeader) (head : Tip)
    : Routine HeaderExtension ErrorKind Unit := do
  let needsRebuild ← .gets (needsRebuild env head)
  .onlyIf needsRebuild (HeaderExtension.rebuild env head genesis)

def missesBlockSums (env : Env) (header : BlockHeader) (ext : Extension) : Bool :=
  decide (header.height > 0) && !(ext.batch.getBlockSums (header.hash env)).isOk

def buildBlockSums (env : Env) (header : BlockHeader) : Routine Extension ErrorKind Unit := do
  let (utxoSum, kernelSum) ← .query fun ext => ext.validateKernelSums env
  .modify fun ext => { ext with
    batch := ext.batch.saveBlockSums (header.hash env) ⟨utxoSum, kernelSum⟩ }

def checkHead (env : Env) (header : BlockHeader) : Routine Extension ErrorKind Unit := do
  Extension.rewind env header
  Extension.validateRoots env
  let missing ← .gets (missesBlockSums env header)
  .onlyIf missing (buildBlockSums env header)

-- The head is reverted to the previous header until the files match. A walk that takes more steps than
-- there are headers never ends.
def resumeHead (env : Env) (genesis : BlockHeader) (fuel : Nat) (head : Tip)
    : Routine ChainState ErrorKind Unit :=
  match fuel with
  | 0 => .lift .hang
  | fuel + 1 => do
    let header ← .query fun st => st.batch.getBlockHeader head.lastBlockH
    headerExtending (checkHeaderMmr env genesis head)
    fun st =>
      match extending (checkHead env header) st with
      | (.err _, st) =>
        match st.batch.getBlockHeader head.prevBlockH with
        | .ok prevHeader =>
          let head := Tip.fromHeader env prevHeader
          let batch := (st.batch.deleteBlock (header.hash env)).saveHead head
          resumeHead env genesis fuel head { st with batch := batch }
        | .err e => (.err e, st)
        | .panic => (.panic, st)
        | .hang => (.hang, st)
      | res => res

def resetHeads : Routine ChainState ErrorKind Unit := do
  let head ← .query fun st => st.batch.head
  let headerHead ← .query fun st => st.batch.headerHead
  .modify fun st =>
    if (st.batch.getBlockHeader headerHead.lastBlockH).isOk then
      { st with batch := st.batch.saveSyncHead headerHead }
    else
      { st with batch := (st.batch.saveHeaderHead head).saveSyncHead head }

def resume (env : Env) (genesis : BlockHeader) : Routine ChainState ErrorKind Unit := do
  let head ← .query fun st => st.batch.head
  let count ← .gets fun st => st.batch.db.headers.entries.length
  resumeHead env genesis (count + 1) head
  resetHeads

-- init on the files and the database of a chain that stopped
def restart (env : Env) (c : Chain) : Outcome ErrorKind Chain :=
  match resume env c.genesis ⟨c.txhashset.reopen, c.store.batch⟩ with
  | (.ok _, st) => .ok { c with store := st.batch.db, txhashset := st.trees, orphans := .new }
  | (.err e, _) => .err e
  | (.panic, _) => .panic
  | (.hang, _) => .hang

end Chain

namespace PMMR

variable {T E : Type} [PMMRable T E]

theorem stable_ahead (hbase : base.Aligned n)
    : Stable (Ahead base) where
  push env elmt p hp := by
    rcases push_eq env elmt p with hsame | ⟨pos, hashes, hok, -⟩
    . rw [hsame]
      exact hp
    . exact hp.push hbase (Prod.ext hok rfl)
  prune position p hp := by
    rcases prune_eq position p with hsame | ⟨hprunable, hremoved⟩
    . rw [hsame]
      exact hp
    . rw [hremoved]
      exact hp.remove hprunable position

end PMMR

structure TxHashSet.Ahead (base t : TxHashSet) : Prop where
  header : base.headerPmmr.Ahead t.headerPmmr
  output : base.outputPmmr.Ahead t.outputPmmr
  rproof : base.rproofPmmr.Ahead t.rproofPmmr
  kernel : base.kernelPmmr.Ahead t.kernelPmmr

def TxHashSet.takenBack (base t : TxHashSet) : TxHashSet where
  headerPmmr := base.headerPmmr.takenBack t.headerPmmr
  syncPmmr := t.syncPmmr
  outputPmmr := base.outputPmmr.takenBack t.outputPmmr
  rproofPmmr := base.rproofPmmr.takenBack t.rproofPmmr
  kernelPmmr := base.kernelPmmr.takenBack t.kernelPmmr

namespace Chain

section

variable {env : Env} {c c' : Chain} {head : BlockHeader} {b : Block}

/-!
The state of a chain between two blocks. The mountain ranges may be compacted.
-/

structure Consistent (env : Env) (c : Chain) (head : BlockHeader) : Prop where
  settled : c.Settled
  isHead : c.store.head = some (.fromHeader env head)
  stored : c.store.headers.getBlockHeader (head.hash env) = some head
  headerHead : ∃ tip, c.store.headerHead = some tip
  headers : ∃ headers,
    c.txhashset.headerPmmr.Tracks env headers
      ∧
    headers.getLast? = some head
      ∧
    headers.length = head.height.toNat + 1
  outputs : ∃ n,
    head.outputMmrSize.toNat = mmrSize n
      ∧
    c.txhashset.outputPmmr.Aligned n
      ∧
    c.txhashset.rproofPmmr.Aligned n
  kernels : ∃ n, head.kernelMmrSize.toNat = mmrSize n ∧ c.txhashset.kernelPmmr.Aligned n
  prunable : c.txhashset.outputPmmr.backend.prunable = true
  reopened : c.txhashset.reopen = c.txhashset
  roots : head.height ≠ 0 → Pipe.RootsMatch env head c.txhashset.outputPmmr c.txhashset.rproofPmmr
    c.txhashset.kernelPmmr
  sums : head.height ≠ 0 → ∃ sums, c.store.blockSums.lookup (head.hash env) = some sums

theorem Consistent.headHeader (hc : Consistent env c head)
    : c.store.batch.headHeader = .ok head := by
  unfold Batch.headHeader Batch.head
  rw [show c.store.batch.db.head = _ from hc.isHead]
  unfold Batch.getBlockHeader
  exact Outcome.okOr_eq_ok.mpr hc.stored

theorem Consistent.header_aligned (hc : Consistent env c head)
    : c.txhashset.headerPmmr.Aligned (head.height.toNat + 1) := by
  obtain ⟨headers, htracks, -, hlength⟩ := hc.headers
  obtain ⟨leaves, hholds, hhashes⟩ := htracks.leaves
  have hsame := congrArg List.length hhashes
  simp only [List.length_map] at hsame
  rw [← hlength, ← hsame]
  exact hholds.aligned

theorem Consistent.reopen_eq (hc : Consistent env c head) (hsettled : t.Settled)
    (hahead : c.txhashset.Ahead t) (hsync : t.syncPmmr = c.txhashset.syncPmmr)
    : t.reopen = t := by
  have hreopened := hc.reopened
  obtain ⟨h, hh⟩ := hahead.header.aligned
  obtain ⟨o, ho⟩ := hahead.output.aligned
  obtain ⟨r, hr⟩ := hahead.rproof.aligned
  obtain ⟨k, hk⟩ := hahead.kernel.aligned
  have hheader : t.headerPmmr.reopen = t.headerPmmr := by
    apply hh.reopen_eq hsettled.headerPmmr
    rw [hahead.header.pruneList]
    exact congrArg (·.headerPmmr.backend.pruneList) hreopened
  have houtput : t.outputPmmr.reopen = t.outputPmmr := by
    apply ho.reopen_eq hsettled.outputPmmr
    rw [hahead.output.pruneList]
    exact congrArg (·.outputPmmr.backend.pruneList) hreopened
  have hrproof : t.rproofPmmr.reopen = t.rproofPmmr := by
    apply hr.reopen_eq hsettled.rproofPmmr
    rw [hahead.rproof.pruneList]
    exact congrArg (·.rproofPmmr.backend.pruneList) hreopened
  have hkernel : t.kernelPmmr.reopen = t.kernelPmmr := by
    apply hk.reopen_eq hsettled.kernelPmmr
    rw [hahead.kernel.pruneList]
    exact congrArg (·.kernelPmmr.backend.pruneList) hreopened
  have hsyncPmmr : t.syncPmmr.reopen = t.syncPmmr := by
    rw [hsync]
    exact congrArg (·.syncPmmr) hreopened
  unfold TxHashSet.reopen
  rw [hheader, houtput, hrproof, hkernel, hsyncPmmr]

structure Persisted (env : Env) (genesis : Block) (c : Chain) (branch : List Block) : Prop where
  onBranch : OnBranch env genesis c branch
  headerHead : ∃ tip, c.store.headerHead = some tip
  sync : c.txhashset.syncPmmr = .new false
  last : ∀ last, branch.getLast? = some last → last.header.height ≠ 0 →
    Pipe.RootsMatch env last.header c.txhashset.outputPmmr c.txhashset.rproofPmmr
        c.txhashset.kernelPmmr
      ∧
    ∃ sums, c.store.blockSums.lookup (last.hash env) = some sums

section

variable {genesis : Block} {branch : List Block}

theorem Persisted.consistent {last : Block} (h : Persisted env genesis c branch)
    (hlast : branch.getLast? = some last)
    : Consistent env c last.header := by
  have hon := h.onBranch
  have hhead := hon.head
  rw [hlast] at hhead
  have hlength := hon.main.length_eq hlast
  have hlast' := hlast
  rw [List.getLast?_eq_getElem?] at hlast'
  have hrecorded := hon.main.recorded _ _ hlast'
  have htake : branch.take (branch.length - 1 + 1) = branch := List.take_of_length_le (by omega)
  have hsize := hrecorded.output
  have hkernelSize := hrecorded.kernel
  rw [htake] at hsize hkernelSize
  have houtput := hon.holds.output.aligned
  have hrproof := hon.holds.rproof.aligned
  have hkernel := hon.holds.kernel.aligned
  rw [PMMR.length_leavesOf] at houtput hrproof hkernel
  rw [List.length_map] at hrproof
  refine ⟨hon.settled, hhead, hon.main.getBlockHeader (List.mem_of_getLast? hlast), h.headerHead,
    ⟨headersOf branch, hon.holds.tracks, ?_, ?_⟩, ⟨_, hsize, houtput, hrproof⟩,
    ⟨_, hkernelSize, hkernel⟩, hon.holds.outputPruned, ?_, fun hheight => (h.last last hlast hheight).1,
    fun hheight => (h.last last hlast hheight).2⟩
  . simp [headersOf, hlast]
  . rw [← hlength]
    simp [headersOf]
  . have hsync : c.txhashset.syncPmmr.reopen = c.txhashset.syncPmmr := by
      rw [h.sync]
      rfl
    unfold TxHashSet.reopen
    rw [hon.holds.header.reopen_eq hon.settled.headerPmmr,
      hon.holds.output.reopen_eq hon.settled.outputPmmr,
      hon.holds.rproof.reopen_eq hon.settled.rproofPmmr,
      hon.holds.kernel.reopen_eq hon.settled.kernelPmmr, hsync]

theorem Persisted.congr (h : Persisted env genesis c branch) (hstore : c'.store = c.store)
    (htrees : c'.txhashset = c.txhashset)
    : Persisted env genesis c' branch := by
  refine ⟨h.onBranch.congr hstore htrees, ?_, ?_, ?_⟩
  . rw [hstore]
    exact h.headerHead
  . rw [htrees]
    exact h.sync
  . rw [hstore, htrees]
    exact h.last

theorem Persisted.takes {q : List Block} {isFork : Bool} {headHeader : BlockHeader} {ext : Extension}
    (h : Persisted env genesis c branch)
    (htakes : Takes env genesis c c' branch q b isFork headHeader ext) (hsettled : c'.Settled)
    : ∃ branch', Persisted env genesis c' branch' := by
  obtain ⟨ext₀, ext₁, sums, old, -, -, hresult⟩ := htakes.result h.onBranch (I := fun _ _ => True)
    ⟨trivial, fun _ _ _ _ _ _ _ => trivial, fun _ _ _ _ _ _ _ _ => trivial⟩
  have hon := hresult.onBranch h.onBranch htakes hsettled
  have hchain := hresult.chain
  obtain ⟨tip, htip⟩ := h.headerHead
  obtain ⟨tip', htip'⟩ := Pipe.exists_betterTip env b.header htip
  cases hmore : Pipe.hasMoreWork b.header old with
  | true =>
    rw [if_pos hmore] at hon hchain
    refine ⟨q ++ [b], hon, ?_, ?_, ?_⟩
    . rw [hchain]
      exact ⟨tip', hresult.frame.headerHead.trans htip'⟩
    . rw [hchain]
      exact h.sync
    . intro last hlast hheight
      rw [List.getLast?_concat, Option.some.injEq] at hlast
      subst hlast
      obtain ⟨pos, p, -, hfollows⟩ := Extension.follows_applyBlock hresult.extended.applied
      rw [hchain]
      refine ⟨rootsMatch_sync hresult.after (hresult.extended.matches hheight).roots, sums, ?_⟩
      change ext₁.batch.db.blockSums.lookup (b.hash env) = some sums
      rw [hfollows.batch.blockSums]
      exact AList.lookup_insert _
  | false =>
    rw [if_neg (by simp [hmore])] at hon hchain
    refine ⟨branch, hon, ?_, ?_, ?_⟩
    . rw [hchain]
      exact ⟨tip', htip'⟩
    . rw [hchain]
      exact h.sync
    . rw [hchain]
      exact h.last

theorem Persisted.processBlockSingle {clock : Clock} {opts : Options}
    (h : Persisted env genesis c branch) (hwrap : c.NoWrap env b)
    (hreturns : (c.processBlockSingle env clock b opts).1.Returns)
    : ∃ branch', Persisted env genesis (c.processBlockSingle env clock b opts).2 branch' := by
  rcases h.onBranch.processBlockSingle hwrap rfl hreturns
    with ⟨hsettled, q, isFork, headHeader, ext, htakes⟩ | ⟨hstore, htrees⟩
  . exact h.takes htakes hsettled
  . exact ⟨branch, h.congr hstore htrees⟩

theorem persisted_init {powVerifier : BlockHeader → Bool} {archiveMode : Bool}
    (hheight : genesis.header.height = 0) (hrecorded : Recorded [genesis] 0 genesis)
    (h : init env powVerifier archiveMode genesis = .ok c)
    : Persisted env genesis c [genesis] := by
  obtain ⟨sums, ext, hstarts⟩ := init_eq_ok h
  refine ⟨onBranch_init hheight hrecorded h, ?_, ?_, ?_⟩
  . rw [hstarts.store]
    exact ⟨_, hstarts.frame.headerHead⟩
  . rw [hstarts.txhashset]
    rfl
  . intro last hlast hne
    obtain rfl : genesis = last := Option.some.inj hlast
    exact absurd hheight hne

theorem consistent_of_run {powVerifier : BlockHeader → Bool} {archiveMode : Bool}
    (hstart : init env powVerifier archiveMode genesis = .ok c)
    (hheight : genesis.header.height = 0)
    (houtputs : genesis.header.outputMmrSize.toNat = mmrSize genesis.body.outputs.length)
    (hkernels : genesis.header.kernelMmrSize.toNat = mmrSize genesis.body.kernels.length)
    (hrun : ProcessRun env (NoWrap env) c c')
    : ∃ head, Consistent env c' head := by
  obtain ⟨branch, hpersisted⟩ := hrun.invariant
    (P := fun c => ∃ branch, Persisted env genesis c branch)
    (fun c pool ⟨branch, h⟩ => ⟨branch, h.congr rfl rfl⟩)
    (fun clock c b opts hwrap ⟨branch, h⟩ hreturns => h.processBlockSingle hwrap hreturns)
    ⟨[genesis], persisted_init hheight (.singleton houtputs hkernels) hstart⟩
  obtain ⟨last, hlast⟩ := hpersisted.onBranch.exists_getLast
  exact ⟨last.header, hpersisted.consistent hlast⟩

end

theorem Consistent.needsRebuild (hc : Consistent env c head)
    (hahead : c.txhashset.headerPmmr.Ahead p)
    : needsRebuild env (.fromHeader env head) ⟨head, p, false, c.store.batch⟩ = false := by
  obtain ⟨headers, htracks, hlast, hlength⟩ := hc.headers
  have hbase := hc.header_aligned
  have hhash := htracks.getHeaderHash head.height.toNat
  rw [List.getLast?_eq_getElem?, hlength, Nat.add_sub_cancel] at hlast
  rw [hlast, insertionToPmmrIndex_succ] at hhash
  have hgrown : getHeaderHash p (leafPos head.height.toNat) = some (head.hash env) := by
    unfold getHeaderHash at hhash ⊢
    rw [Option.map_some, Option.map_eq_some_iff] at hhash
    obtain ⟨entry, hentry, hentryHash⟩ := hhash
    obtain ⟨m, hp⟩ := hahead.aligned
    have hprunable := hahead.prunable.trans htracks.prunable
    have hread : c.txhashset.headerPmmr.backend.getDataFromFile (leafPos head.height.toNat)
        = some entry := by
      unfold PMMR.getData PMMRBackend.getData at hentry
      rw [isLeaf_leafPos, htracks.prunable] at hentry
      simp only [↓reduceIte, Bool.not_true, Bool.false_eq_true, Bool.false_and,
        Option.ite_none_left_eq_some] at hentry
      exact hentry.2
    have hread' := hahead.getDataFromFile hbase hread
    have hle : leafPos head.height.toNat ≤ p.lastPos := by
      rw [hp.lastPos]
      exact (leafPos_le_mmrSize_iff.mpr (Nat.lt_succ_self _)).trans (hahead.lastPos_le hbase hp)
    have hdata : p.getData (leafPos head.height.toNat) = some entry := by
      unfold PMMR.getData PMMRBackend.getData
      rw [if_neg (by omega), isLeaf_leafPos, hprunable]
      simpa using hread'
    rw [hdata, Option.map_some, hentryHash]
  have hfound : Epic.getHeaderByHeight p c.store.batch head.height = .ok head := by
    unfold Epic.getHeaderByHeight
    rw [insertionToPmmrIndex_succ, hgrown]
    exact Outcome.okOr_eq_ok.mpr hc.stored
  unfold Chain.needsRebuild
  rw [show (Tip.fromHeader env head).height = head.height from rfl]
  dsimp only
  rw [hfound]
  simp [Tip.fromHeader]

theorem Consistent.headerExtending (hc : Consistent env c head) (hsettled : t.Settled)
    (hahead : c.txhashset.Ahead t)
    : headerExtending (checkHeaderMmr env c.genesis (.fromHeader env head)) ⟨t, c.store.batch⟩
        =
      (.ok (), ⟨t, c.store.batch⟩) := by
  obtain ⟨m, hp⟩ := hahead.header.aligned
  have hcheck : checkHeaderMmr env c.genesis (.fromHeader env head)
      ⟨head, t.headerPmmr, false, c.store.batch⟩
        = (.ok (), ⟨head, t.headerPmmr, false, c.store.batch⟩) := by
    unfold checkHeaderMmr
    rw [bind_apply, gets_apply]
    dsimp only
    rw [hc.needsRebuild hahead.header]
    rfl
  unfold Epic.headerExtending extendingHeaders
  rw [bind_apply, query_apply]
  rw [show ((ChainState.mk t c.store.batch).batch.head >>= fun tip =>
    (ChainState.mk t c.store.batch).batch.getBlockHeader tip.lastBlockH) = .ok head from hc.headHeader]
  dsimp only
  unfold runHeaderExtension
  dsimp only
  rw [hcheck]
  unfold HeaderExtension.close
  dsimp only
  rw [if_neg (by simp), hp.sync_eq hsettled.headerPmmr]
  rfl

/-!
The other mountain ranges are rewound to the sizes of the head, without the positions that the lost block
spent.
-/

def rewound (head : BlockHeader) (st : ChainState) : Extension where
  header := head
  headerPmmr := st.trees.headerPmmr.rewind (insertionToPmmrIndex (head.height.toNat + 1)) ∅
  outputPmmr := st.trees.outputPmmr.rewind head.outputMmrSize.toNat ∅
  rproofPmmr := st.trees.rproofPmmr.rewind head.outputMmrSize.toNat ∅
  kernelPmmr := st.trees.kernelPmmr.rewind head.kernelMmrSize.toNat ∅
  rollback := false
  batch := st.batch

theorem rewind_new (env : Env) (head : BlockHeader) (st : ChainState)
    : Extension.rewind env head (.new st head) = (.ok (), rewound head st) := by
  have hrewinds : Extension.Rewinds env head (.new st head) (rewound head st) ∅ st.batch :=
    ⟨Extension.inputPosToRewind_self head st.batch, rfl⟩
  exact hrewinds.rewind_eq

structure TakenBack (base t : TxHashSet) (ext : Extension) : Prop where
  sync : ext.sync t = base.takenBack t
  header : ext.headerPmmr.backend.hashFile.Tidy
  output : ext.outputPmmr.backend.hashFile.Tidy
  rproof : ext.rproofPmmr.backend.hashFile.Tidy
  kernel : ext.kernelPmmr.backend.hashFile.Tidy

theorem Consistent.takenBack (hc : Consistent env c head) (hsettled : t.Settled)
    (hahead : c.txhashset.Ahead t) (batch : Batch)
    : TakenBack c.txhashset t (rewound head ⟨t, batch⟩) := by
  obtain ⟨n, hn, houtput, hrproof⟩ := hc.outputs
  obtain ⟨k, hk, hkernel⟩ := hc.kernels
  have hheaderBack := hahead.header.sync_rewind hc.header_aligned hc.settled.headerPmmr
    hsettled.headerPmmr.hashFile.buffer hsettled.headerPmmr.dataFile.buffer
    (PMMR.lastParent_leafPos head.height.toNat)
  have houtputBack := hahead.output.sync_rewind houtput hc.settled.outputPmmr
    hsettled.outputPmmr.hashFile.buffer hsettled.outputPmmr.dataFile.buffer (PMMR.lastParent_mmrSize n)
  have hrproofBack := hahead.rproof.sync_rewind hrproof hc.settled.rproofPmmr
    hsettled.rproofPmmr.hashFile.buffer hsettled.rproofPmmr.dataFile.buffer (PMMR.lastParent_mmrSize n)
  have hkernelBack := hahead.kernel.sync_rewind hkernel hc.settled.kernelPmmr
    hsettled.kernelPmmr.hashFile.buffer hsettled.kernelPmmr.dataFile.buffer (PMMR.lastParent_mmrSize k)
  rw [← insertionToPmmrIndex_succ] at hheaderBack
  rw [← hn] at houtputBack hrproofBack
  rw [← hk] at hkernelBack
  refine ⟨?_, hheaderBack.2, houtputBack.2, hrproofBack.2, hkernelBack.2⟩
  unfold Extension.sync TxHashSet.takenBack rewound
  dsimp only
  rw [hheaderBack.1, houtputBack.1, hrproofBack.1, hkernelBack.1]

theorem TakenBack.validateRoots (hc : Consistent env c head)
    (h : TakenBack c.txhashset t ext) (hheader : ext.header = head)
    : Extension.validateRoots env ext = (.ok (), ext) := by
  unfold Extension.validateRoots
  rw [query_eq_ok]
  refine ⟨?_, rfl⟩
  rw [hheader]
  split
  . rfl
  next hheight =>
  have hroots := hc.roots hheight
  obtain ⟨headers, htracks, -⟩ := hc.headers
  obtain ⟨leaves, hholds, -⟩ := htracks.leaves
  obtain ⟨root, hroot⟩ := hholds.root_ok (ε := ErrorKind) env
  have hheaderRoot : (ext.headerPmmr.root env : Outcome ErrorKind Hash) = .ok root := by
    rw [← PMMR.root_sync h.header, show ext.headerPmmr.sync = _ from congrArg (·.headerPmmr) h.sync]
    exact hroot
  have houtputRoot : (ext.outputPmmr.root env : Outcome ErrorKind Hash) = .ok head.outputRoot := by
    rw [← PMMR.root_sync h.output, show ext.outputPmmr.sync = _ from congrArg (·.outputPmmr) h.sync]
    exact hroots.output
  have hrproofRoot : (ext.rproofPmmr.root env : Outcome ErrorKind Hash)
      = .ok head.rangeProofRoot := by
    rw [← PMMR.root_sync h.rproof, show ext.rproofPmmr.sync = _ from congrArg (·.rproofPmmr) h.sync]
    exact hroots.rproof
  have hkernelRoot : (ext.kernelPmmr.root env : Outcome ErrorKind Hash) = .ok head.kernelRoot := by
    rw [← PMMR.root_sync h.kernel, show ext.kernelPmmr.sync = _ from congrArg (·.kernelPmmr) h.sync]
    exact hroots.kernel
  rw [hheaderRoot, houtputRoot, hrproofRoot, hkernelRoot]
  simp

theorem Consistent.missesBlockSums (hc : Consistent env c head)
    (hbatch : ext.batch = c.store.batch)
    : missesBlockSums env head ext = false := by
  unfold Chain.missesBlockSums
  by_cases hheight : head.height = 0
  . rw [hheight]
    rfl
  . obtain ⟨sums, hsums⟩ := hc.sums hheight
    have hfound : ext.batch.getBlockSums (head.hash env) = .ok sums := by
      rw [hbatch]
      exact Outcome.okOr_eq_ok.mpr hsums
    rw [hfound]
    simp [Outcome.isOk]

theorem Consistent.extending (hc : Consistent env c head) (hsettled : t.Settled)
    (hahead : c.txhashset.Ahead t)
    : extending (checkHead env head) ⟨t, c.store.batch⟩
        =
      (.ok (), ⟨c.txhashset.takenBack t, c.store.batch⟩) := by
  have htaken := hc.takenBack hsettled hahead c.store.batch
  have hcheck : checkHead env head (.new ⟨t, c.store.batch⟩ head)
      = (.ok (), rewound head ⟨t, c.store.batch⟩) := by
    apply bind_eq_ok.mpr
    refine ⟨(), _, rewind_new env head _, ?_⟩
    apply bind_eq_ok.mpr
    refine ⟨(), _, htaken.validateRoots hc rfl, ?_⟩
    rw [bind_apply, gets_apply]
    dsimp only
    rw [hc.missesBlockSums rfl]
    rfl
  rw [Pipe.extending_of_headHeader hc.headHeader, hcheck, Pipe.close_eq_ok]
  refine ⟨rfl, ?_⟩
  rw [if_neg (by simp [rewound]), htaken.sync]
  rfl

-- files that are ahead of the database
structure Written (c c₁ : Chain) (t : TxHashSet) : Prop where
  head : c₁.store.head = c.store.head
  outputPos : c₁.store.outputPos = c.store.outputPos
  output : c₁.txhashset.outputPmmr = c.txhashset.outputPmmr.takenBack t.outputPmmr

theorem Consistent.restart (hc : Consistent env c head) (hsettled : t.Settled)
    (hahead : c.txhashset.Ahead t) (hsync : t.syncPmmr = c.txhashset.syncPmmr)
    : ∃ c₁, restart env { c with txhashset := t } = .ok c₁ ∧ Written c c₁ t := by
  have hresume : resumeHead env c.genesis (c.store.batch.db.headers.entries.length + 1)
      (.fromHeader env head) ⟨t, c.store.batch⟩
        = (.ok (), ⟨c.txhashset.takenBack t, c.store.batch⟩) := by
    unfold resumeHead
    apply bind_eq_ok.mpr
    refine ⟨head, _, query_eq_ok.mpr ⟨Outcome.okOr_eq_ok.mpr hc.stored, rfl⟩, ?_⟩
    apply bind_eq_ok.mpr
    refine ⟨(), _, hc.headerExtending hsettled hahead, ?_⟩
    dsimp only
    rw [hc.extending hsettled hahead]
  obtain ⟨tip, htip⟩ := hc.headerHead
  have hreset : ∃ batch : Batch, resetHeads ⟨c.txhashset.takenBack t, c.store.batch⟩
      = (.ok (), ⟨c.txhashset.takenBack t, batch⟩)
        ∧ batch.db.head = c.store.head
        ∧ batch.db.outputPos = c.store.outputPos := by
    unfold resetHeads
    rw [bind_apply, query_apply]
    rw [show (ChainState.mk (c.txhashset.takenBack t) c.store.batch).batch.head
      = .ok (.fromHeader env head) from Outcome.okOr_eq_ok.mpr hc.isHead]
    dsimp only
    rw [bind_apply, query_apply]
    rw [show (ChainState.mk (c.txhashset.takenBack t) c.store.batch).batch.headerHead
      = .ok tip from Outcome.okOr_eq_ok.mpr htip]
    dsimp only
    rw [modify_apply]
    split
    . exact ⟨_, rfl, rfl, rfl⟩
    . exact ⟨_, rfl, rfl, rfl⟩
  obtain ⟨batch, hreset, hhead, houtputPos⟩ := hreset
  have hall : resume env c.genesis ⟨t.reopen, c.store.batch⟩
      = (.ok (), ⟨c.txhashset.takenBack t, batch⟩) := by
    rw [hc.reopen_eq hsettled hahead hsync]
    apply bind_eq_ok.mpr
    refine ⟨_, _, query_eq_ok.mpr ⟨Outcome.okOr_eq_ok.mpr hc.isHead, rfl⟩, ?_⟩
    apply bind_eq_ok.mpr
    refine ⟨_, _, gets_eq_ok.mpr ⟨rfl, rfl⟩, ?_⟩
    apply bind_eq_ok.mpr
    exact ⟨(), _, hresume, hreset⟩
  refine ⟨{ c with store := batch.db, txhashset := c.txhashset.takenBack t, orphans := .new }, ?_,
    hhead, houtputPos, rfl⟩
  unfold Chain.restart
  dsimp only
  rw [hall]

end

end Chain
end Epic
