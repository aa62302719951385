import Epic.Chain.Restart
import Epic.Chain.TxHashSet.Utxo

/-!
This module contains what a restart makes of a block whose mountain ranges were written and whose batch
was not committed.
-/

namespace Epic
namespace Chain

open Routine Pmmr

section

variable {env : Env} {c c' : Chain} {head : BlockHeader} {b : Block}

structure NewHead (env : Env) (c c' : Chain) (head : BlockHeader) (b : Block) (ext : Extension)
    (sums : BlockSums) : Prop where
  extended : Pipe.Extends env b (.new (c.started env b) head) ext sums
  trees : c'.txhashset = ext.sync c.txhashset
  sorted : b.body.Sorted env

theorem Consistent.newHead (hc : Consistent env c head)
    (hprev : b.header.prevHash = head.hash env)
    (h : c.processBlockSingle env clock b opts = (.ok (some tip), c'))
    : ∃ ext sums, NewHead env c c' head b ext sums := by
  obtain ⟨old, st, hold, hprocess, rfl⟩ := processBlockSingle_eq_ok h
  have hsettled : c.state.trees.Settled := hc.settled
  obtain ⟨isFork, mid, headHeader, ext, haccepted⟩ := Pipe.processBlock_eq_ok hsettled hprocess
  have hmid : mid = c.txhashset := by
    obtain ⟨headers, htracks, hlast, -⟩ := hc.headers
    apply eq_of_headerUnseen hc.settled htracks _ haccepted.unseen
    rintro rfl
    contradiction
  subst hmid
  rw [hc.isHead, Option.some.injEq] at hold
  have hfork : isFork = false := by
    have horphan := haccepted.orphan
    unfold Pipe.checkOrphan at horphan
    simp only [Outcome.bind_eq_ok, Batch.head, Outcome.okOr_eq_ok] at horphan
    obtain ⟨head', hhead', -, -, -, -, hisFork⟩ := horphan
    have hhead' : c.store.head = some head' := hhead'
    rw [hc.isHead, Option.some.injEq] at hhead'
    rw [← hhead'] at hisFork
    injection hisFork with hisFork
    rw [← hisFork]
    simp [Tip.fromHeader, hprev]
  subst hfork
  have hne : head.hash env ≠ b.header.hash env := by
    have hknown := haccepted.known
    unfold Pipe.checkKnown Pipe.checkKnownHead at hknown
    simp only [Outcome.bind_eq_ok, Outcome.require_eq_ok, Batch.head, Outcome.okOr_eq_ok] at hknown
    obtain ⟨⟨⟩, ⟨head', hhead', hknown⟩, -⟩ := hknown
    have hhead' : c.store.head = some head' := hhead'
    rw [hc.isHead, Option.some.injEq] at hhead'
    rw [← hhead'] at hknown
    intro heq
    exact hknown (.inl heq.symm)
  have hheadHeader : headHeader = head := by
    obtain ⟨tip', htip', hfound⟩ := Outcome.bind_eq_ok.mp haccepted.headFound
    rw [Batch.head, Outcome.okOr_eq_ok] at htip'
    rw [Batch.getBlockHeader, Outcome.okOr_eq_ok] at hfound
    have htip' : c.store.head = some tip' := htip'
    rw [hc.isHead, Option.some.injEq] at htip'
    have hlookup : (Pipe.headerBatch env c.state.batch b.header).db.headers.getBlockHeader
        (head.hash env) = some head := by
      rw [← hc.stored]
      exact AList.lookup_insert_ne hne
    rw [← htip'] at hfound
    exact Option.some.inj (hfound.symm.trans hlookup)
  subst hheadHeader
  obtain ⟨ext₁, sums, old', hextends, hold', rfl⟩ := Pipe.extendBlock_next haccepted.extended
  obtain ⟨pos, p, -, hfollows⟩ := Extension.follows_applyBlock hextends.applied
  have hsame : old' = old := by
    rw [hfollows.batch.frame.head] at hold'
    have hold' : c.store.head = some old' := hold'
    rw [hc.isHead, Option.some.injEq] at hold'
    rw [← hold', hold]
  have hmore : Pipe.hasMoreWork b.header old = true := by
    obtain ⟨old', hold', htip⟩ := haccepted.head
    have hold' : c.store.head = some old' := hold'
    rw [hc.isHead, Option.some.injEq, hold] at hold'
    rw [← hold'] at htip
    by_contra hless
    rw [if_neg hless] at htip
    contradiction
  have hrollback : ext₁.rollback = false := hfollows.rollback
  refine ⟨ext₁, sums, hextends, ?_, ?_⟩
  . rw [haccepted.state, hsame, hmore, hrollback]
    rfl
  . have hvalid := haccepted.validBlock
    unfold Pipe.validateBlock at hvalid
    rw [query_eq_ok] at hvalid
    obtain ⟨prev, -, hvalid⟩ := Outcome.bind_eq_ok.mp hvalid.1
    obtain ⟨sum, hvalid, -⟩ := Outcome.bind_eq_ok.mp hvalid
    rw [Outcome.mapErr_eq_ok] at hvalid
    obtain ⟨⟨⟩, hbody, -⟩ := Outcome.bind_eq_ok.mp hvalid
    rw [Outcome.mapErr_eq_ok] at hbody
    exact TransactionBody.sorted_of_validate hbody

theorem NewHead.ahead (hc : Consistent env c head)
    (h : NewHead env c c' head b ext sums)
    : c.txhashset.Ahead c'.txhashset := by
  obtain ⟨n, -, houtput, hrproof⟩ := hc.outputs
  obtain ⟨k, -, hkernel⟩ := hc.kernels
  have hstable : Extension.Stable c.txhashset.headerPmmr.Ahead c.txhashset.outputPmmr.Ahead
      c.txhashset.rproofPmmr.Ahead c.txhashset.kernelPmmr.Ahead fun _ => True :=
    ⟨PMMR.stable_ahead hc.header_aligned, PMMR.stable_ahead houtput, PMMR.stable_ahead hrproof,
      PMMR.stable_ahead hkernel, fun _ _ _ _ => trivial, fun _ _ _ _ => trivial⟩
  have hahead := hstable.applyBlock h.extended.applied
    ⟨.refl hc.header_aligned, .refl houtput, .refl hrproof, .refl hkernel, trivial⟩
  rw [h.trees]
  exact ⟨hahead.headerPmmr.sync, hahead.outputPmmr.sync, hahead.rproofPmmr.sync,
    hahead.kernelPmmr.sync⟩

theorem subset_applyOutputs
    (h : forEach outputs (Extension.applyAndIndexOutput env) ext = (.ok u, ext'))
    : ext.outputPmmr.backend.leafSet.bitmap ⊆ ext'.outputPmmr.backend.leafSet.bitmap := by
  apply forEach_eq_ok (fun _ ext₁ => ext.outputPmmr.backend.leafSet.bitmap
    ⊆ ext₁.outputPmmr.backend.leafSet.bitmap) (Finset.Subset.refl _) _ h
  intro _ o ext₁ ext₂ _ hsubset hout
  obtain ⟨pos, hpush, -⟩ := (Extension.creates_applyAndIndexOutput hout).pushed
  apply hsubset.trans
  rcases PMMR.push_eq env o ext₁.outputPmmr with hsame | ⟨pos, hashes, -, happended⟩
  . rw [hpush] at hsame
    rw [show ext₂.outputPmmr = _ from hsame]
  . rw [hpush] at happended
    rw [show ext₂.outputPmmr = _ from happended]
    unfold PMMRBackend.append
    dsimp only
    split
    . exact Finset.subset_insert _ _
    . exact Finset.Subset.refl _

structure Placed (env : Env) (start : Batch) (done : List Output) (ext : Extension) : Prop where
  aligned : ∃ n, ext.outputPmmr.Aligned n
  index : ∀ commit,
    ext.batch.getOutputPos commit = start.getOutputPos commit
      ∨
    ∃ o ∈ done, ∃ pos,
      ext.batch.getOutputPos commit = some pos
        ∧
      pos ≤ ext.outputPmmr.lastPos
        ∧
      ext.outputPmmr.backend.getFromFile pos = some (hashWithIndex env (o.write .hash) (pos - 1))

theorem Placed.create
    (h : Placed env start done ext) (hcreates : Extension.Creates env o ext ext')
    : Placed env start (done ++ [o]) ext' := by
  obtain ⟨n, haligned⟩ := h.aligned
  obtain ⟨pos, hpush, hbatch⟩ := hcreates.pushed
  obtain ⟨rfl, happended⟩ := haligned.push hpush
  have hsize := mmrSize_lt_succ n
  have hlastPos := haligned.lastPos
  have hlastPos' := happended.aligned.lastPos
  refine ⟨⟨n + 1, happended.aligned⟩, ?_⟩
  intro commit
  rw [hbatch]
  unfold Batch.getOutputPos Batch.saveOutputPos
  dsimp only
  by_cases heq : commit = o.commit
  . subst heq
    refine .inr ⟨o, by simp, leafPos n, AList.lookup_insert _, ?_, happended.getFromFile haligned⟩
    rw [hlastPos']
    exact hsize
  . rw [AList.lookup_insert_ne heq]
    rcases h.index commit with hsame | ⟨o', ho', pos, hpos, hle, hhash⟩
    . exact .inl hsame
    . exact .inr ⟨o', List.mem_append_left _ ho', pos, hpos, by omega,
        happended.getFromFile_old haligned hhash⟩

structure Displaced (env : Env) (mid : Extension) (done : List Input) (ext : Extension) : Prop where
  batch : ext.batch = mid.batch
  lastPos : ext.outputPmmr.lastPos = mid.outputPmmr.lastPos
  hashes : ext.outputPmmr.backend.getFromFile = mid.outputPmmr.backend.getFromFile
  spent : ∀ x ∈ done, ∃ pos,
    mid.batch.getOutputPos x.commit = some pos
      ∧
    isLeaf pos = true
      ∧
    pos ∉ ext.outputPmmr.backend.leafSet.bitmap
      ∧
    ∀ hash, pos ≤ mid.outputPmmr.lastPos → mid.outputPmmr.backend.getFromFile pos = some hash →
      hash = hashWithIndex env x.write (pos - 1)

theorem Displaced.spend
    (h : Displaced env mid done ext) (hspends : Extension.Spends env x ext ext')
    : Displaced env mid (done ++ [x]) ext' := by
  obtain ⟨pos, hpos, hhash, hprune⟩ := hspends.pruned
  have hremoved := PMMR.removed_of_prune hprune
  have hstate := hremoved.state
  have hmem {pos' : Nat} : pos' ∈ ext'.outputPmmr.backend.leafSet.bitmap
      ↔ pos' ≠ pos ∧ pos' ∈ ext.outputPmmr.backend.leafSet.bitmap := by
    rw [hstate]
    exact Finset.mem_erase
  refine ⟨hspends.batch.trans h.batch, ?_, ?_, ?_⟩
  . rw [hstate]
    exact h.lastPos
  . rw [hstate]
    exact h.hashes
  . intro x' hx'
    rcases List.mem_append.mp hx' with hx' | hx'
    . obtain ⟨pos', hpos', hleaf, hnot, hhash'⟩ := h.spent x' hx'
      exact ⟨pos', hpos', hleaf, fun hin => hnot (hmem.mp hin).2, hhash'⟩
    . rw [List.mem_singleton.mp hx']
      rw [h.batch] at hpos
      refine ⟨pos, hpos, hremoved.leaf, fun hin => (hmem.mp hin).1 rfl, ?_⟩
      intro hash hle hread
      apply hhash
      rw [← h.lastPos] at hle
      rw [hremoved.getHash hle, h.hashes, hread]

theorem NewHead.displaced (hinj : Function.Injective env.blake2b)
    (hc : Consistent env c head) (h : NewHead env c c' head b ext sums)
    (hx : x ∈ b.body.inputs)
    : ∃ pos,
        c.store.batch.getOutputPos x.commit = some pos
          ∧
        isLeaf pos = true
          ∧
        pos ∉ c'.txhashset.outputPmmr.backend.leafSet.bitmap := by
  obtain ⟨mid, happlies⟩ := Extension.applies_applyBlock h.extended.applied
  obtain ⟨pos, p, -, houtputs⟩ := happlies.outputs
  obtain ⟨last, hinputs, hkeeps⟩ := happlies.inputs
  obtain ⟨n, -, haligned, -⟩ := hc.outputs
  have hplaced : Placed env c.store.batch b.body.outputs mid :=
    forEach_eq_ok (Placed env c.store.batch) ⟨⟨n, haligned⟩, fun _ => .inl rfl⟩
      (fun _ _ _ _ _ hdone hout => hdone.create (Extension.creates_applyAndIndexOutput hout)) houtputs
  have hdisplaced : Displaced env mid b.body.inputs last :=
    forEach_eq_ok (Displaced env mid) ⟨rfl, rfl, rfl, List.forall_mem_nil _⟩
      (fun _ _ _ _ _ hdone hinput => hdone.spend (Extension.spends_applyInput hinput)) hinputs
  obtain ⟨pos, hpos, hleaf, hnot, hhash⟩ := hdisplaced.spent x hx
  have hbitmap : pos ∉ c'.txhashset.outputPmmr.backend.leafSet.bitmap := by
    rw [h.trees]
    change pos ∉ ext.outputPmmr.sync.backend.leafSet.bitmap
    rw [PMMR.bitmap_sync, hkeeps.outputPmmr]
    exact hnot
  rcases hplaced.index x.commit with hsame | ⟨o, ho, pos', hpos', hle, hread⟩
  . exact ⟨pos, hsame ▸ hpos, hleaf, hbitmap⟩
  . -- not an output of the block itself
    rw [hpos, Option.some.injEq] at hpos'
    subst hpos'
    have hwrite := hashWithIndex_inj hinj (hhash _ hle hread)
    exact absurd (congrArg env.blake2b hwrite.symm) (h.sorted.disjoint x hx o ho)

theorem NewHead.mem_unspentUpTo (hc : Consistent env c head)
    (h : NewHead env c c' head b ext sums) (hinputs : b.body.inputs = [])
    (hpos : pos ≤ c.txhashset.outputPmmr.lastPos)
    : pos ∈ c'.txhashset.outputPmmr.unspentUpTo c.txhashset.outputPmmr.lastPos
        ↔
      pos ∈ c.txhashset.outputPmmr.backend.leafSet.bitmap := by
  have hsubset : c.txhashset.outputPmmr.backend.leafSet.bitmap
      ⊆ c'.txhashset.outputPmmr.backend.leafSet.bitmap := by
    obtain ⟨mid, happlies⟩ := Extension.applies_applyBlock h.extended.applied
    obtain ⟨pos, p, -, houtputs⟩ := happlies.outputs
    obtain ⟨last, hlast, hkeeps⟩ := happlies.inputs
    rw [hinputs] at hlast
    simp only [forEach, pure_apply, Prod.mk.injEq, true_and] at hlast
    rw [h.trees]
    change _ ⊆ ext.outputPmmr.sync.backend.leafSet.bitmap
    rw [PMMR.bitmap_sync, hkeeps.outputPmmr, ← hlast]
    exact subset_applyOutputs houtputs
  unfold PMMR.unspentUpTo
  rw [LeafSet.mem_rewound]
  constructor
  . rintro (⟨hmem, hle⟩ | hmem)
    . exact (h.ahead hc).output.unspent pos hmem hle
    . exact absurd hmem (Finset.notMem_empty _)
  . intro hmem
    exact .inl ⟨hsubset hmem, hpos⟩

structure Recovered (env : Env) (c c₁ : Chain) : Prop where
  head : c₁.store.head = c.store.head
  inputs : ∀ x, UTXOView.validateInput env c₁.txhashset.outputPmmr c₁.store.batch x
    = UTXOView.validateInput env c.txhashset.outputPmmr c.store.batch x
  outputs : ∀ o, UTXOView.validateOutput c₁.txhashset.outputPmmr c₁.store.batch o
    = UTXOView.validateOutput c.txhashset.outputPmmr c.store.batch o

theorem Written.getOutputPos (h : Written c c₁ t) (commit : Commitment)
    : c₁.store.batch.getOutputPos commit = c.store.batch.getOutputPos commit :=
  congrArg (AList.lookup commit) h.outputPos

theorem Written.recovered (hc : Consistent env c head)
    (h : Written c c₁ t)
    (hsame : ∀ pos ≤ c.txhashset.outputPmmr.lastPos,
      pos ∈ t.outputPmmr.unspentUpTo c.txhashset.outputPmmr.lastPos
        ↔ pos ∈ c.txhashset.outputPmmr.backend.leafSet.bitmap)
    : Recovered env c c₁ := by
  have hgetHash : c₁.txhashset.outputPmmr.getHash = c.txhashset.outputPmmr.getHash := by
    funext pos
    rw [h.output]
    unfold PMMR.getHash PMMRBackend.getHash PMMR.takenBack
    simp only [hc.prunable, ↓reduceIte]
    split
    . rfl
    . next hle =>
      simp only [LeafSet.includes, hsame pos (by omega)]
      rfl
  have hgetData : c₁.txhashset.outputPmmr.getData = c.txhashset.outputPmmr.getData := by
    funext pos
    rw [h.output]
    unfold PMMR.getData PMMRBackend.getData PMMR.takenBack
    simp only [hc.prunable, ↓reduceIte]
    split
    . rfl
    . next hle =>
      simp only [LeafSet.includes, hsame pos (by omega)]
      rfl
  refine ⟨h.head, fun x => ?_, fun o => ?_⟩
  . unfold UTXOView.validateInput
    rw [h.getOutputPos, hgetHash]
  . unfold UTXOView.validateOutput
    rw [h.getOutputPos, hgetData]

theorem Written.not_recovered
    (hc : Consistent env c head) (h : Written c c₁ t)
    (hvalid : UTXOView.validateInput env c.txhashset.outputPmmr c.store.batch x = .ok ())
    (hpos : c.store.batch.getOutputPos x.commit = some pos) (hleaf : isLeaf pos = true)
    (hnot : pos ∉ t.outputPmmr.backend.leafSet.bitmap)
    : ¬ Recovered env c c₁ := by
  intro hrecovered
  have hvalid' := (hrecovered.inputs x).trans hvalid
  unfold UTXOView.validateInput at hvalid'
  rw [h.getOutputPos, hpos] at hvalid'
  simp only [Outcome.require_eq_ok] at hvalid'
  have hnone : c₁.txhashset.outputPmmr.getHash pos = none := by
    have hmissing : pos ∉ t.outputPmmr.unspentUpTo c.txhashset.outputPmmr.lastPos := by
      unfold PMMR.unspentUpTo
      rw [LeafSet.mem_rewound]
      rintro (⟨hmem, -⟩ | hmem)
      . exact hnot hmem
      . exact absurd hmem (Finset.notMem_empty _)
    rw [h.output]
    unfold PMMR.getHash PMMRBackend.getHash PMMR.takenBack
    simp [hleaf, hc.prunable, LeafSet.includes, hmissing]
  rw [hnone] at hvalid'
  contradiction

theorem restart_recovers_iff_no_inputs {clock : Clock} {opts : Options} {tip : Tip}
    (hc : Consistent env c head) (hprev : b.header.prevHash = head.hash env)
    (h : c.processBlockSingle env clock b opts = (.ok (some tip), c'))
    : (b.body.inputs = [] →
        ∃ c₁, restart env { c with txhashset := c'.txhashset } = .ok c₁ ∧ Recovered env c c₁)
        ∧
      (Function.Injective env.blake2b →
        (∃ c₁, restart env { c with txhashset := c'.txhashset } = .ok c₁ ∧ Recovered env c c₁) →
          b.body.inputs = []) := by
  obtain ⟨ext, sums, hnew⟩ := hc.newHead hprev h
  have hsettled : c'.Settled := by
    have hsettled := settled_processBlockSingle hc.settled env clock b opts
    rwa [h] at hsettled
  have hsync : c'.txhashset.syncPmmr = c.txhashset.syncPmmr := by
    rw [hnew.trees]
    rfl
  obtain ⟨c₁, hrestart, hwritten⟩ := hc.restart hsettled (hnew.ahead hc) hsync
  refine ⟨fun hinputs => ⟨c₁, hrestart, ?_⟩, ?_⟩
  . exact hwritten.recovered hc fun pos hpos => hnew.mem_unspentUpTo hc hinputs hpos
  rintro hinj ⟨c₂, hrestart', hrecovered⟩
  rw [hrestart, Outcome.ok.injEq] at hrestart'
  subst hrestart'
  by_contra hne
  obtain ⟨x, hx⟩ := List.exists_mem_of_ne_nil _ hne
  obtain ⟨⟨⟩, -, hinputs⟩ := Outcome.bind_eq_ok.mp hnew.extended.utxo
  have hvalid := Extension.validateInputs_eq_ok.mp hinputs x hx
  obtain ⟨pos, hpos, hleaf, hnot⟩ := hnew.displaced hinj hc hx
  exact hwritten.not_recovered hc hvalid hpos hleaf hnot hrecovered

end

open Sample in
theorem restart_recovers_iff_no_inputs_main₂
    : ∃ c' c₁,
        (process start main₁).processBlockSingle env clock main₂ .none
            = (.ok (some (.fromHeader env main₂.header)), c')
          ∧
        restart env { process start main₁ with txhashset := c'.txhashset } = .ok c₁
          ∧
        Recovered env (process start main₁) c₁ := by
  have hruns : (start.processBlock env clock main₁ .none).1.isOk = true
      ∧ (singles env clock start main₁ .none).length = 1
      ∧ (process start main₁).store.head.map (·.lastBlockH) = some main₂.header.prevHash
      ∧ ((process start main₁).processBlockSingle env clock main₂ .none).1
        = .ok (some (.fromHeader env main₂.header)) := by decide +kernel
  obtain ⟨hok, hlength, hhead, hres⟩ := hruns
  have hwrap : start.NoWrap env main₁ := fun _ _ _ _ => by decide
  have hrun := ProcessRun.single .start hwrap hok hlength
  obtain ⟨head, hconsistent⟩ := consistent_of_run init_start rfl rfl rfl hrun
  have hprev : main₂.header.prevHash = head.hash env := by
    rw [show (process start main₁).store.head = _ from hconsistent.isHead] at hhead
    exact (Option.some.inj hhead).symm
  have hprocess : (process start main₁).processBlockSingle env clock main₂ .none
      = (.ok (some (.fromHeader env main₂.header)), _) := Prod.ext hres rfl
  obtain ⟨c₁, hrestart, hrecovered⟩ := (restart_recovers_iff_no_inputs hconsistent hprev hprocess).1 rfl
  exact ⟨_, c₁, hprocess, hrestart, hrecovered⟩

namespace Sample

def spender : Input := ⟨.plain, Transparent.encode (0, 5)⟩

def parent : Chain := process start side₁

-- the files are written, the database is as before
def stopped : Chain :=
  { parent with txhashset := (parent.processBlockSingle env clock side₂ .none).2.txhashset }

theorem runs_stopped
    : (start.processBlock env clock side₁ .none).1.isOk = true
        ∧ (parent.processBlockSingle env clock side₂ .none).1
          = .ok (some (.fromHeader env side₂.header))
        ∧ UTXOView.validateInput env parent.txhashset.outputPmmr parent.store.batch spender = .ok ()
        ∧ (restart env stopped >>= fun c₁ =>
            UTXOView.validateInput env c₁.txhashset.outputPmmr c₁.store.batch spender)
          = .err (.alreadySpent spender.commit)
        ∧ (restart env stopped).isOk = true := by
  decide +kernel

end Sample

-- The output that the lost block spent stays spent.
open Sample in
theorem restart_keeps_output_spent
    : ∃ c₁,
        ProcessRun env (fun _ _ => True) start parent
          ∧
        (parent.processBlockSingle env clock side₂ .none).1 = .ok (some (.fromHeader env side₂.header))
          ∧
        restart env stopped = .ok c₁
          ∧
        ¬ Recovered env parent c₁ := by
  obtain ⟨hparent, hprocess, hbefore, hafter, hok⟩ := runs_stopped
  obtain ⟨c₁, hrestart⟩ := Outcome.isOk_eq_true.mp hok
  have hrun := processRun_process .start hparent
  refine ⟨c₁, hrun, hprocess, hrestart, ?_⟩
  intro hrecovered
  rw [hrestart] at hafter
  have hsame := (hrecovered.inputs spender).symm.trans hafter
  rw [hbefore] at hsame
  contradiction

end Chain
end Epic
