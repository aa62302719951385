import Epic.Chain.Genesis
import Epic.Chain.Shadow
import Mathlib.Algebra.BigOperators.Intervals

/-!
This module contains the supply of a chain: along a chain of blocks the value of the unspent outputs
grows by the scheduled rewards and by nothing else.
-/

namespace Epic

open Routine Pmmr

section

variable {S : Type} [AddCommGroup S]

def unspentValue {secp : Secp} (o : Opening secp S) (p : PMMR OutputIdentifier) : ℤ :=
  ∑ pos ∈ p.backend.leafSet.bitmap, ((p.getData pos).map fun out => o.value out.commit).getD 0

-- The index may miss an unspent output, but what it finds is the output that was asked for.
structure Indexed (p : PMMR OutputIdentifier) (outputPos : AList fun _ : Commitment => Nat)
    (leaves : List (OutputIdentifier × Hash)) : Prop where
  holds : p.Holds leaves
  prunable : p.backend.prunable = true
  unspent : ∀ pos ∈ p.backend.leafSet.bitmap, ∃ n < leaves.length, pos = leafPos n
  index : ∀ commit pos, outputPos.lookup commit = some pos →
    ∃ n leaf, pos = leafPos n ∧ leaves[n]? = some leaf ∧ leaf.1.commit = commit

namespace Indexed

variable {p p' : PMMR OutputIdentifier} {outputPos : AList fun _ : Commitment => Nat}
  {leaves : List (OutputIdentifier × Hash)} {secp : Secp}

def leafValue (o : Opening secp S) (leaves : List (OutputIdentifier × Hash)) (pos : Nat) : ℤ :=
  (leaves[nLeaves pos - 1]?.map fun leaf => o.value leaf.1.commit).getD 0

theorem leafValue_leafPos (o : Opening secp S) (n : Nat)
    : leafValue o leaves (leafPos n) = (leaves[n]?.map fun leaf => o.value leaf.1.commit).getD 0 := by
  unfold leafValue
  rw [nLeaves_leafPos, Nat.add_sub_cancel]

theorem unspentValue_eq (h : Indexed p outputPos leaves) (o : Opening secp S)
    : unspentValue o p = ∑ pos ∈ p.backend.leafSet.bitmap, leafValue o leaves pos := by
  apply Finset.sum_congr rfl
  intro pos hpos
  obtain ⟨n, -, rfl⟩ := h.unspent pos hpos
  have hhas : p.has (leafPos n) = true := by
    simp [PMMR.has, LeafSet.includes, hpos]
  rw [h.holds.getData, if_pos hhas, leafValue_leafPos, Option.map_map]
  rfl

theorem new
    : Indexed (.new true) ∅ [] where
  holds := .new true
  prunable := rfl
  unspent := by simp [PMMR.new, PMMRBackend.new, LeafSet.empty]
  index := by simp

theorem sync (h : Indexed p outputPos leaves)
    : Indexed p.sync outputPos leaves := by
  refine ⟨h.holds.sync, h.prunable, ?_, h.index⟩
  rw [PMMR.bitmap_sync]
  exact h.unspent

theorem unspentValue_sync (h : Indexed p outputPos leaves) (o : Opening secp S)
    : unspentValue o p.sync = unspentValue o p := by
  rw [h.unspentValue_eq, h.sync.unspentValue_eq, PMMR.bitmap_sync]

theorem push {env : Env} {out : Output} {pos : Nat} (h : Indexed p outputPos leaves)
    (o : Opening secp S) (hpush : PMMR.push env out p = (.ok pos, p'))
    : Indexed p' (outputPos.insert out.commit pos) (leaves ++ [PMMR.leaf env out leaves.length])
        ∧
      unspentValue o p' = unspentValue o p + o.value out.commit := by
  obtain ⟨hpos, hpushed⟩ := h.holds.push hpush
  have hbitmap : p'.backend.leafSet.bitmap = insert (leafPos leaves.length) p.backend.leafSet.bitmap := by
    rw [hpushed.leafSet, if_pos h.prunable]
    rfl
  have hindexed : Indexed p' (outputPos.insert out.commit pos)
      (leaves ++ [PMMR.leaf env out leaves.length]) := by
    refine ⟨hpushed.holds, hpushed.prunable.trans h.prunable, ?_, ?_⟩
    . intro pos' hpos'
      rw [hbitmap, Finset.mem_insert] at hpos'
      rw [List.length_append]
      rcases hpos' with rfl | hmem
      . exact ⟨leaves.length, by simp, rfl⟩
      . obtain ⟨n, hn, heq⟩ := h.unspent pos' hmem
        exact ⟨n, by omega, heq⟩
    . intro commit pos' hlookup
      by_cases hcommit : commit = out.commit
      . subst hcommit
        rw [AList.lookup_insert] at hlookup
        injection hlookup with hlookup
        exact ⟨leaves.length, _, hlookup.symm.trans hpos, List.getElem?_concat_length, rfl⟩
      . rw [AList.lookup_insert_ne hcommit] at hlookup
        obtain ⟨n, leaf, heq, hleaf, hcommit⟩ := h.index commit pos' hlookup
        have hn : n < leaves.length := (List.getElem?_eq_some_iff.mp hleaf).1
        exact ⟨n, leaf, heq, by rw [List.getElem?_append_left hn]; exact hleaf, hcommit⟩
  refine ⟨hindexed, ?_⟩
  have hnew : leafPos leaves.length ∉ p.backend.leafSet.bitmap := by
    intro hmem
    obtain ⟨n, hn, heq⟩ := h.unspent _ hmem
    have := leafPos_injective heq
    omega
  rw [hindexed.unspentValue_eq, h.unspentValue_eq, hbitmap, Finset.sum_insert hnew]
  have hold : ∀ pos' ∈ p.backend.leafSet.bitmap,
      leafValue o (leaves ++ [PMMR.leaf env out leaves.length]) pos' = leafValue o leaves pos' := by
    intro pos' hmem
    obtain ⟨n, hn, rfl⟩ := h.unspent pos' hmem
    rw [leafValue_leafPos, leafValue_leafPos, List.getElem?_append_left hn]
  rw [Finset.sum_congr rfl hold, leafValue_leafPos, List.getElem?_concat_length]
  have hvalue : o.value (PMMR.leaf env out leaves.length).1.commit = o.value out.commit := rfl
  simp only [Option.map_some, Option.getD_some, hvalue]
  ring

theorem prune (h : Indexed p outputPos leaves)
    (o : Opening secp S) (hindex : outputPos.lookup commit = some pos)
    (hprune : PMMR.prune pos p = (.ok true, p'))
    : Indexed p' outputPos leaves ∧ unspentValue o p' = unspentValue o p - o.value commit := by
  obtain ⟨n, rfl, hpruned⟩ := h.holds.prune hprune
  have hbitmap : p'.backend.leafSet.bitmap = p.backend.leafSet.bitmap.erase (leafPos n) := by
    rw [hpruned.state]
    rfl
  have hindexed : Indexed p' outputPos leaves := by
    refine ⟨hpruned.holds h.holds, ?_, ?_, h.index⟩
    . rw [hpruned.state]
      exact h.prunable
    . intro pos' hmem
      rw [hbitmap] at hmem
      exact h.unspent pos' (Finset.mem_of_mem_erase hmem)
  refine ⟨hindexed, ?_⟩
  obtain ⟨m, leaf, hpos, hleaf, hcommit⟩ := h.index commit _ hindex
  have hm : n = m := leafPos_injective hpos
  subst hm
  rw [hindexed.unspentValue_eq, h.unspentValue_eq, hbitmap]
  rw [Finset.sum_erase_eq_sub hpruned.unspent, leafValue_leafPos, hleaf, ← hcommit]
  rfl

end Indexed

theorem Extension.unspentValue_applyBlock {env : Env} {b : Block} {ext ext' : Extension} {u : Unit}
    {leaves : List (OutputIdentifier × Hash)} (o : Opening env.secp S)
    (hext : Indexed ext.outputPmmr ext.batch.db.outputPos leaves)
    (h : applyBlock env b ext = (.ok u, ext'))
    : (∃ leaves', Indexed ext'.outputPmmr ext'.batch.db.outputPos leaves')
        ∧
      unspentValue o ext'.outputPmmr + o.total (b.body.inputs.map (·.commit))
        =
      unspentValue o ext.outputPmmr + o.total (b.body.outputs.map (·.commit)) := by
  obtain ⟨mid, happlies⟩ := applies_applyBlock h
  obtain ⟨pos, q, -, houtputs⟩ := happlies.outputs
  obtain ⟨last, hinputs, hkeeps⟩ := happlies.inputs
  have hmid := forEach_eq_ok (fun done ext₁ =>
    (∃ leaves', Indexed ext₁.outputPmmr ext₁.batch.db.outputPos leaves')
      ∧
    unspentValue o ext₁.outputPmmr
      =
    unspentValue o ext.outputPmmr + o.total (done.map (·.commit))) ⟨⟨leaves, hext⟩, by simp⟩
    (by
      rintro done out ext₁ ext₂ - ⟨⟨leaves₁, hext₁⟩, hvalue⟩ hout
      have hcreates := creates_applyAndIndexOutput hout
      obtain ⟨pos, hpush, hbatch⟩ := hcreates.pushed
      obtain ⟨hindexed, hsum⟩ := hext₁.push o hpush
      rw [hbatch]
      refine ⟨⟨_, hindexed⟩, ?_⟩
      rw [hsum, hvalue]
      simp only [List.map_append, List.map_cons, List.map_nil, Opening.total_append,
        Opening.total_cons, Opening.total_nil]
      ring) houtputs
  have hlast := forEach_eq_ok (fun done ext₁ =>
    (∃ leaves', Indexed ext₁.outputPmmr ext₁.batch.db.outputPos leaves')
      ∧
    unspentValue o ext₁.outputPmmr + o.total (done.map (·.commit))
      =
    unspentValue o mid.outputPmmr) ⟨hmid.1, by simp⟩
    (by
      rintro done input ext₁ ext₂ - ⟨⟨leaves₁, hext₁⟩, hvalue⟩ hinput
      have hspends := spends_applyInput hinput
      obtain ⟨pos, hpos, -, hprune⟩ := hspends.pruned
      obtain ⟨hindexed, hsum⟩ := hext₁.prune o hpos hprune
      rw [hspends.batch]
      refine ⟨⟨_, hindexed⟩, ?_⟩
      rw [← hvalue, hsum]
      simp only [List.map_append, List.map_cons, List.map_nil, Opening.total_append,
        Opening.total_cons, Opening.total_nil]
      ring) hinputs
  rw [hkeeps.outputPmmr, hkeeps.batch]
  refine ⟨hlast.1, ?_⟩
  rw [hlast.2, hmid.2]

end

/-!
A chain of blocks, each of which was accepted on top of the one before it and became the head.
-/

namespace Chain

inductive Grown (env : Env) (c₀ : Chain) : List Block → Chain → Prop where
  | start : Grown env c₀ [] c₀
  | block {blocks : List Block} {c c' : Chain} {clock : Clock} {opts : Options} {b : Block}
      {tip tip' : Tip} (grown : Grown env c₀ blocks c) (head : c.store.head = some tip)
      (next : b.header.prevHash = tip.lastBlockH)
      (accepted : c.processBlockSingle env clock b opts = (.ok (some tip'), c'))
      : Grown env c₀ (blocks ++ [b]) c'

structure Next (env : Env) (b : Block) (tip : Tip) (c c' : Chain) (sums : BlockSums)
    (ext : Extension) : Prop where
  distinct : b.hash env ≠ tip.lastBlockH
  valid : ∃ ctx, Pipe.validateHeader env ctx c.store.headers b.header = .ok ()
  summed : Pipe.newBlockSums env (Pipe.headerBatch env c.store.batch b.header) b = .ok sums
  applied : ∃ ext₀,
    Extension.applyBlock env b ext₀ = (.ok (), ext)
      ∧
    ext₀.outputPmmr = c.txhashset.outputPmmr
      ∧
    ext₀.batch = (Pipe.headerBatch env c.store.batch b.header).saveBlockSums (b.hash env) sums
  store : c'.store = (Pipe.blockBatch env ext.batch b).db
  head : c'.store.head = some (.fromHeader env b.header)
  outputPmmr : c'.txhashset.outputPmmr = ext.outputPmmr.sync

theorem next_processBlockSingle (hc : c.Settled) (hhead : c.store.head = some tip)
    (hnext : b.header.prevHash = tip.lastBlockH)
    (h : c.processBlockSingle env clock b opts = (.ok (some tip'), c'))
    : ∃ sums ext, Next env b tip c c' sums ext := by
  have hst : c.state.trees.Settled := hc
  obtain ⟨-, st, -, hprocess, rfl⟩ := processBlockSingle_eq_ok h
  obtain ⟨isFork, mid, headHeader, ext, haccepted⟩ := Pipe.processBlock_eq_ok hst hprocess
  have hstate : c.state.batch.db.head = some tip := hhead
  have hfork : isFork = false := by
    have horphan := haccepted.orphan
    simp only [Pipe.checkOrphan, Batch.head, hstate, Outcome.okOr, Outcome.ok_bind,
      Outcome.bind_eq_ok, Outcome.pure_eq_ok, Outcome.ok.injEq] at horphan
    obtain ⟨-, -, -, -, hisFork⟩ := horphan
    simpa [hnext] using hisFork.symm
  subst hfork
  have hmore : Pipe.hasMoreWork b.header tip = true := by
    obtain ⟨old, hold, htip⟩ := haccepted.head
    rw [hstate] at hold
    injection hold with hold
    subst hold
    by_contra hless
    rw [if_neg hless] at htip
    contradiction
  have hdistinct : b.hash env ≠ tip.lastBlockH := by
    have hknown := haccepted.known
    simp only [Pipe.checkKnown, Pipe.checkKnownHead, Batch.head, hstate, Outcome.okOr,
      Outcome.ok_bind, Outcome.bind_eq_ok, Outcome.require_eq_ok] at hknown
    obtain ⟨-, hunknown, -⟩ := hknown
    exact fun heq => hunknown (.inl heq)
  obtain ⟨ext₁, sums, head, hextends, hhead₁, hext⟩ := Pipe.extendBlock_next haccepted.extended
  obtain ⟨pos, p, -, hfollows⟩ := Extension.follows_applyBlock hextends.applied
  have hhead₂ : head = tip := by
    rw [hfollows.batch.frame.head] at hhead₁
    have hbase : c.store.head = some head := hhead₁
    rw [hhead] at hbase
    injection hbase with hbase
    exact hbase.symm
  have hrollback : ext.rollback = false := by
    have hrollback₁ : ext₁.rollback = false := hfollows.rollback
    rw [hext, hhead₂, hmore, hrollback₁]
    rfl
  have hstate' := haccepted.state
  rw [hrollback] at hstate'
  have houtput : mid.outputPmmr = c.txhashset.outputPmmr :=
    congrArg (·.outputPmmr) haccepted.unseen.trees
  refine ⟨sums, ext₁, hdistinct, ⟨_, haccepted.valid⟩, hextends.summed,
    ⟨_, hextends.applied, houtput, rfl⟩, ?_, ?_, ?_⟩
  . rw [commit, hstate', hext]
    rfl
  . have hbetter : (c.commit st).store.head = Pipe.betterTip env ext.batch.db.head b.header := by
      rw [commit, hstate']
      rfl
    rw [hbetter, hext]
    dsimp only
    rw [hhead₁, hhead₂]
    simp [Pipe.betterTip, hmore]
  . rw [commit, hstate', hext]
    rfl

/-!
The invariant along the chain: what is unspent can be found by the index, and the sums of the head
commit to the same value.
-/

structure Balanced (env : Env) {S : Type} [AddCommGroup S] (o : Opening env.secp S) (c : Chain)
    (n : Nat) (tip : Tip) (header : BlockHeader) (sums : BlockSums) : Prop where
  settled : c.Settled
  indexed : ∃ leaves, Indexed c.txhashset.outputPmmr c.store.outputPos leaves
  head : c.store.head = some tip
  stored : c.store.headers.lookup tip.lastBlockH = some header
  hash : header.hash env = tip.lastBlockH
  tipHeight : tip.height = header.height
  height : header.height = UInt64.ofNat n
  summed : c.store.blockSums.lookup tip.lastBlockH = some sums
  balanced : o.value sums.utxoSum = o.value sums.kernelSum

-- reward_at_height + add_reward_foundation
def minted (env : Env) (height : UInt64) : ℤ :=
  match (Consensus.rewardAtHeight env height : Outcome ErrorKind UInt64),
    (Consensus.addRewardFoundation env height : Outcome ErrorKind UInt64) with
  | .ok reward, .ok foundation => reward.toNat + foundation.toNat
  | _, _ => 0

def Mints (env : Env) (height : UInt64) : Prop :=
  (Consensus.rewardAtHeight env height : Outcome ErrorKind UInt64).isOk = true
    ∧
  (Consensus.addRewardFoundation env height : Outcome ErrorKind UInt64).isOk = true

theorem toInt_overage_eq_minted
    (h : (Consensus.overageAtHeight env height : Outcome ErrorKind Int64) = .ok overage)
    : Mints env height ∧ overage.toInt = -minted env height := by
  obtain ⟨reward, foundation, hreward, hfoundation, htoInt⟩ :=
    Consensus.toInt_overageAtHeight h
  unfold Mints minted
  rw [hreward, hfoundation]
  exact ⟨⟨rfl, rfl⟩, htoInt⟩

section

variable {S : Type} [AddCommGroup S] {env : Env} (o : Opening env.secp S)

theorem value_of_newBlockSums {batch : Batch} {b : Block} {header : BlockHeader}
    {old sums : BlockSums}
    (hkernels : ∀ k ∈ b.body.kernels, o.value k.excess = 0)
    (hprev : batch.getPreviousHeader b.header = .ok header)
    (hold : batch.getBlockSums (header.hash env) = .ok old)
    (hbalanced : o.value old.utxoSum = o.value old.kernelSum)
    (h : Pipe.newBlockSums env batch b = .ok sums)
    : Mints env b.header.height
        ∧
      o.value sums.utxoSum = o.value sums.kernelSum
        ∧
      o.total (b.body.outputs.map (·.commit))
        =
      o.total (b.body.inputs.map (·.commit)) + minted env b.header.height := by
  simp only [Pipe.newBlockSums, hprev, hold, Outcome.ok_bind, Outcome.bind_eq_ok,
    Outcome.mapErr_eq_ok, Outcome.pure_eq_ok, Outcome.ok.injEq] at h
  obtain ⟨overage, hoverage, r, hverify, rfl⟩ := h
  obtain ⟨hmints, htoInt⟩ := toInt_overage_eq_minted hoverage
  obtain ⟨hkernelSum, hutxoSum, heq⟩ := o.value_of_verifyKernelSums hverify
  have hzero : o.total (b.body.kernels.map (·.excess)) = 0 := by
    unfold Opening.total
    rw [List.map_map]
    apply List.sum_eq_zero
    simpa using hkernels
  refine ⟨hmints, hutxoSum.trans hkernelSum.symm, ?_⟩
  simp only [BlockSums.committed, TransactionBody.committed, Opening.total_cons, hzero, htoInt]
    at heq
  omega

theorem Balanced.next
    (hkernels : ∀ k ∈ b.body.kernels, o.value k.excess = 0) (hc : Balanced env o c n tip header old)
    (hnext : b.header.prevHash = tip.lastBlockH) (hc' : c'.Settled)
    (h : Next env b tip c c' sums ext)
    : Balanced env o c' (n + 1) (.fromHeader env b.header) b.header sums
        ∧
      Mints env (UInt64.ofNat (n + 1))
        ∧
      unspentValue o c'.txhashset.outputPmmr
        =
      unspentValue o c.txhashset.outputPmmr + minted env (UInt64.ofNat (n + 1)) := by
  have hprev : (Pipe.headerBatch env c.store.batch b.header).getPreviousHeader b.header
      = .ok header := by
    refine Outcome.okOr_eq_ok.mpr ?_
    change (c.store.headers.insert (b.hash env) b.header).lookup b.header.prevHash = some header
    rw [hnext, AList.lookup_insert_ne h.distinct.symm]
    exact hc.stored
  have hold : (Pipe.headerBatch env c.store.batch b.header).getBlockSums (header.hash env)
      = .ok old := by
    refine Outcome.okOr_eq_ok.mpr ?_
    rw [hc.hash]
    exact hc.summed
  obtain ⟨hmints, hbalanced, hvalue⟩ :=
    value_of_newBlockSums o hkernels hprev hold hc.balanced h.summed
  have hheight : b.header.height = UInt64.ofNat (n + 1) := by
    obtain ⟨ctx, hvalid⟩ := h.valid
    obtain ⟨-, prev, hchecked⟩ := Pipe.validateHeader_eq_ok.mp hvalid
    have hparent : c.store.headers.lookup b.header.prevHash = some prev := hchecked.parent
    rw [hnext, hc.stored] at hparent
    injection hparent with hparent
    rw [MachineInt.eq_add_of_add hchecked.height, ← hparent, hc.height]
    exact (UInt64.ofNat_add n 1).symm
  obtain ⟨ext₀, happly, hpmmr, hbatch⟩ := h.applied
  obtain ⟨leaves, hindexed⟩ := hc.indexed
  have hindexed₀ : Indexed ext₀.outputPmmr ext₀.batch.db.outputPos leaves := by
    rw [hpmmr, hbatch]
    exact hindexed
  obtain ⟨⟨leaves', hindexed'⟩, hunspent⟩ := Extension.unspentValue_applyBlock o hindexed₀ happly
  obtain ⟨pos, p, -, hfollows⟩ := Extension.follows_applyBlock happly
  have hframe := hfollows.batch.frame
  have hstore := h.store
  refine ⟨⟨hc', ⟨leaves', ?_⟩, h.head, ?_, rfl, rfl, hheight, ?_, hbalanced⟩, ?_, ?_⟩
  . rw [h.outputPmmr, hstore]
    exact hindexed'.sync
  . have hheaders : c'.store.headers = c.store.headers.saveBlockHeader env b.header := by
      rw [hstore]
      refine hframe.headers.trans ?_
      change ext₀.batch.db.headers = _
      rw [hbatch]
      rfl
    rw [hheaders]
    exact AList.lookup_insert _
  . have hsums : c'.store.blockSums = c.store.blockSums.insert (b.hash env) sums := by
      rw [hstore]
      refine hfollows.batch.blockSums.trans ?_
      change ext₀.batch.db.blockSums = _
      rw [hbatch]
      rfl
    rw [hsums]
    exact AList.lookup_insert _
  . rw [← hheight]
    exact hmints
  . rw [h.outputPmmr, hindexed'.unspentValue_sync, ← hheight]
    rw [hpmmr] at hunspent
    omega

theorem Balanced.start {powVerifier : BlockHeader → Bool} {archiveMode : Bool} {genesis : Block}
    {c : Chain} (h : init env powVerifier archiveMode genesis = .ok c)
    (hheight : genesis.header.height = 0)
    : ∃ tip header sums, Balanced env o c 0 tip header sums := by
  obtain ⟨sums, ext, hstarts⟩ := init_eq_ok h
  have hframe := hstarts.frame
  let ext₀ : Extension := .new ⟨.new, genesisBatch env genesis⟩ genesis.header
  have hindexed₀ : Indexed ext₀.outputPmmr ext₀.batch.db.outputPos [] := .new
  obtain ⟨⟨leaves, hindexed⟩, -⟩ := Extension.unspentValue_applyBlock o hindexed₀ hstarts.applied
  refine ⟨.fromHeader env genesis.header, genesis.header, sums, settled_init h, ⟨leaves, ?_⟩, ?_, ?_,
    rfl, rfl, hheight, ?_, ?_⟩
  . rw [hstarts.txhashset, hstarts.store]
    exact hindexed.sync
  . rw [hstarts.store]
    exact hframe.head
  . rw [hstarts.store]
    change ext.batch.db.headers.lookup _ = _
    rw [hframe.headers]
    exact AList.lookup_insert _
  . rw [hstarts.store]
    exact AList.lookup_insert _
  . have hsummed := hstarts.summed
    unfold genesisSums at hsummed
    dsimp only at hsummed
    split at hsummed
    . simp only [Outcome.bind_eq_ok, Outcome.mapErr_eq_ok, Outcome.pure_eq_ok, Outcome.ok.injEq]
        at hsummed
      obtain ⟨overage, -, r, hverify, rfl⟩ := hsummed
      obtain ⟨hkernelSum, hutxoSum, -⟩ := o.value_of_verifyKernelSums hverify
      exact hutxoSum.trans hkernelSum.symm
    . injection hsummed with hsummed
      rw [← hsummed]

theorem supply_eq_minted {powVerifier : BlockHeader → Bool} {archiveMode : Bool} {genesis : Block}
    {c₀ c : Chain} {blocks : List Block}
    (hinit : init env powVerifier archiveMode genesis = .ok c₀) (hheight : genesis.header.height = 0)
    (hgrown : Grown env c₀ blocks c)
    (hkernels : ∀ b ∈ blocks, ∀ k ∈ b.body.kernels, o.value k.excess = 0)
    : c.store.head.map (·.height) = some (UInt64.ofNat blocks.length)
        ∧
      (∀ i, 1 ≤ i → i ≤ blocks.length → Mints env (UInt64.ofNat i))
        ∧
      unspentValue o c.txhashset.outputPmmr
        =
      unspentValue o c₀.txhashset.outputPmmr
        + ∑ i ∈ Finset.Icc 1 blocks.length, minted env (UInt64.ofNat i) := by
  suffices hinv : (∃ tip header sums, Balanced env o c blocks.length tip header sums)
      ∧
    (∀ i, 1 ≤ i → i ≤ blocks.length → Mints env (UInt64.ofNat i))
      ∧
    unspentValue o c.txhashset.outputPmmr
      =
    unspentValue o c₀.txhashset.outputPmmr
      + ∑ i ∈ Finset.Icc 1 blocks.length, minted env (UInt64.ofNat i) by
    obtain ⟨⟨tip, header, sums, hc⟩, hrest⟩ := hinv
    refine ⟨?_, hrest⟩
    rw [hc.head, Option.map_some, hc.tipHeight, hc.height]
  induction hgrown with
  | start => exact ⟨Balanced.start o hinit hheight, fun i h₁ h₂ => by simp at h₂; omega, by simp⟩
  | @block blocks c c' clock opts b tip tip' hgrown hhead hnext haccepted ih =>
    obtain ⟨⟨tip₁, header, old, hc⟩, hmints, hvalue⟩ :=
      ih fun b' hb' => hkernels b' (List.mem_append_left _ hb')
    have htip : tip₁ = tip := by
      have := hc.head
      rw [hhead] at this
      injection this with this
      exact this.symm
    subst htip
    have hc' : c'.Settled := by
      have := settled_processBlockSingle hc.settled env clock b opts
      rw [haccepted] at this
      exact this
    obtain ⟨sums, ext, hstep⟩ := next_processBlockSingle hc.settled hhead hnext haccepted
    have hb : b ∈ blocks ++ [b] := by simp
    obtain ⟨hbalanced, hmint, hunspent⟩ := hc.next o (hkernels b hb) hnext hc' hstep
    rw [List.length_append]
    refine ⟨⟨_, _, _, hbalanced⟩, ?_, ?_⟩
    . intro i h₁ h₂
      rcases Nat.lt_or_ge blocks.length i with hlt | hge
      . have hi : i = blocks.length + 1 := by
          simp at h₂
          omega
        rw [hi]
        exact hmint
      . exact hmints i h₁ hge
    . rw [hunspent, hvalue]
      change _ = _ + ∑ i ∈ Finset.Icc 1 (blocks.length + 1), _
      rw [Finset.sum_Icc_succ_top (by omega)]
      ring

end

open Sample in
theorem supply_eq_minted_firstBlock
    : ∃ c,
        Grown env start [firstBlock] c
          ∧
        minted env 1 = 1457920000
          ∧
        unspentValue Transparent.opening c.txhashset.outputPmmr
          =
        unspentValue Transparent.opening start.txhashset.outputPmmr
          + ∑ i ∈ Finset.Icc 1 [firstBlock].length, minted env (UInt64.ofNat i) := by
  have hok : start.processBlockSingle env clock firstBlock .none
      = (.ok (some (.fromHeader env firstBlock.header)),
          (start.processBlockSingle env clock firstBlock .none).2) := by
    apply Prod.ext
    . decide +kernel
    . rfl
  have hhead : start.store.head = some (.fromHeader env Sample.genesis.header) := by
    decide
  have hnext : firstBlock.header.prevHash
      = (Tip.fromHeader env Sample.genesis.header).lastBlockH := by
    decide
  have hgrown : Grown env start [firstBlock] _ := .block .start hhead hnext hok
  have hkernels : ∀ b ∈ [firstBlock], ∀ k ∈ b.body.kernels, Transparent.opening.value k.excess = 0 := by
    decide
  have hsupply := supply_eq_minted (Transparent.opening : Opening env.secp ℤ) init_start rfl
    hgrown hkernels
  exact ⟨_, hgrown, by decide, hsupply.2.2⟩

end Chain

end Epic
