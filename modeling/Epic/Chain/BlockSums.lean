import Epic.Chain.LeafSets
import Epic.Chain.Supply
import Epic.Core.Committed.Modular
import Mathlib.Data.Int.ConditionallyCompleteOrder

/-!
This module contains the sums that are stored with the blocks: they are computed block by block, and
are the sums over all that is unspent and over all kernels of the chain that ends in the head.
-/

namespace Epic

open Routine Pmmr

namespace Chain

section

variable {env : Env}

def rewardTotal (env : Env) (genesisHadReward : Bool) (height : Nat) : ℤ :=
  (if genesisHadReward then minted env 0 else 0)
    + ∑ i ∈ Finset.Icc 1 height, minted env (UInt64.ofNat i)

theorem minted_nonneg (env : Env) (height : UInt64)
    : 0 ≤ minted env height := by
  unfold minted
  split <;> omega

theorem minted_eq_of_ok
    (hreward : (Consensus.rewardAtHeight env height : Outcome ErrorKind UInt64) = .ok reward)
    (hfoundation : (Consensus.addRewardFoundation env height : Outcome ErrorKind UInt64) = .ok foundation)
    : minted env height = reward.toNat + foundation.toNat := by
  unfold minted
  rw [hreward, hfoundation]

theorem rewardAtHeight_zero (env : Env)
    : (Consensus.rewardAtHeight env 0 : Outcome ErrorKind UInt64) = .ok (16 * Consensus.epicBase) := by
  have htotal : (Consensus.blockTotalRewardAtHeight env.overflowChecks 0 : Outcome ErrorKind UInt64)
      = .ok (16 * Consensus.epicBase) := if_pos (by decide)
  have hlevy : (Consensus.rewardFoundationAtHeight env 0 : Outcome ErrorKind UInt64) = .ok 0 := rfl
  rw [Consensus.rewardAtHeight, htotal, Outcome.ok_bind, hlevy, Outcome.ok_bind,
    MachineInt.sub_eq_ok (by decide), UInt64.sub_zero]

theorem minted_zero (env : Env)
    : minted env 0 = 1600000000 := by
  rw [minted_eq_of_ok (rewardAtHeight_zero env) rfl]
  decide

theorem rewardTotal_zero (genesisHadReward : Bool)
    : rewardTotal env genesisHadReward 0 = if genesisHadReward then minted env 0 else 0 := by
  simp [rewardTotal]

theorem rewardTotal_succ (genesisHadReward : Bool) (height : Nat)
    : rewardTotal env genesisHadReward (height + 1)
        =
      rewardTotal env genesisHadReward height + minted env (UInt64.ofNat (height + 1)) := by
  unfold rewardTotal
  rw [Finset.sum_Icc_succ_top (by omega), add_assoc]

theorem rewardTotal_mono (genesisHadReward : Bool)
    : Monotone (rewardTotal env genesisHadReward) := by
  apply monotone_nat_of_le_succ
  intro height
  rw [rewardTotal_succ]
  exact le_add_of_nonneg_right (minted_nonneg env _)

theorem rewardTotal_nonneg (genesisHadReward : Bool) (height : Nat)
    : 0 ≤ rewardTotal env genesisHadReward height := by
  apply le_trans _ (rewardTotal_mono genesisHadReward (Nat.zero_le height))
  rw [rewardTotal_zero]
  split
  . exact minted_nonneg env 0
  . exact le_rfl

theorem minted_le_rewardTotal (genesisHadReward : Bool) (h : height ≠ 0)
    : minted env height ≤ rewardTotal env genesisHadReward height.toNat := by
  obtain ⟨n, hn⟩ : ∃ n, height.toNat = n + 1 := by
    apply Nat.exists_eq_add_one.mpr
    by_contra hzero
    exact h (UInt64.toNat_inj.mp (by simpa using hzero))
  rw [hn, rewardTotal_succ, ← hn, UInt64.ofNat_toNat]
  exact le_add_of_nonneg_left (rewardTotal_nonneg genesisHadReward n)

theorem totalOverageAtHeight_ok {genesisHadReward : Bool} {height : Nat}
    (hmints : ∀ i, 1 ≤ i → i ≤ height → Mints env (UInt64.ofNat i))
    (hlt : rewardTotal env genesisHadReward height < 2 ^ 63)
    : ∃ sum : Int64,
        (Consensus.totalOverageAtHeight env genesisHadReward height : Outcome ErrorKind Int64) = .ok sum
          ∧
        sum.toInt = rewardTotal env genesisHadReward height := by
  induction height with
  | zero =>
    rw [Consensus.totalOverageAtHeight, rewardTotal_zero]
    cases genesisHadReward with
    | true =>
      rw [if_pos rfl, if_pos rfl, rewardAtHeight_zero, minted_zero]
      exact ⟨_, rfl, by decide⟩
    | false => exact ⟨0, rfl, rfl⟩
  | succ height ih =>
    rw [rewardTotal_succ] at hlt ⊢
    have hpos := minted_nonneg env (UInt64.ofNat (height + 1))
    have hnonneg : 0 ≤ rewardTotal env genesisHadReward height := rewardTotal_nonneg _ _
    obtain ⟨sum, hsum, hval⟩ := ih (fun i h₁ h₂ => hmints i h₁ (by omega)) (by omega)
    obtain ⟨hreward, hfoundation⟩ := hmints (height + 1) (by omega) le_rfl
    obtain ⟨reward, hreward⟩ := Outcome.isOk_eq_true.mp hreward
    obtain ⟨foundation, hfoundation⟩ := Outcome.isOk_eq_true.mp hfoundation
    have hminted := minted_eq_of_ok hreward hfoundation
    have hr : reward.toInt64.toInt = reward.toNat := by
      rw [MachineInt.toInt_toInt64, if_pos (by omega)]
    have hf : foundation.toInt64.toInt = foundation.toNat := by
      rw [MachineInt.toInt_toInt64, if_pos (by omega)]
    obtain ⟨both, hboth, hbothVal⟩ := MachineInt.add_ok (ε := ErrorKind) (a := reward.toInt64)
      (b := foundation.toInt64) env.overflowChecks
      (by simp only [MachineInt.Fits, MachineInt.toInt, MachineInt.lo, MachineInt.hi]; omega)
    simp only [MachineInt.toInt] at hbothVal
    obtain ⟨next, hnext, hnextVal⟩ := MachineInt.add_ok (ε := ErrorKind) (a := sum) (b := both)
      env.overflowChecks
      (by simp only [MachineInt.Fits, MachineInt.toInt, MachineInt.lo, MachineInt.hi]; omega)
    simp only [MachineInt.toInt] at hnextVal
    refine ⟨next, ?_, by omega⟩
    rw [Consensus.totalOverageAtHeight, hsum, Outcome.ok_bind, hreward, Outcome.ok_bind, hfoundation,
      Outcome.ok_bind, hboth, Outcome.ok_bind, hnext]

theorem toInt_minValue
    : Int64.minValue.toInt = -2 ^ 63 := by
  decide

theorem totalOverage_ok {genesisHadReward : Bool} {height : UInt64}
    (hmints : ∀ i, 1 ≤ i → i ≤ height.toNat → Mints env (UInt64.ofNat i))
    (hlt : rewardTotal env genesisHadReward height.toNat < 2 ^ 63)
    : ∃ overage : Int64,
        (Consensus.totalOverage env genesisHadReward height : Outcome ErrorKind Int64) = .ok overage
          ∧
        overage ≠ Int64.minValue
          ∧
        overage.toInt = -rewardTotal env genesisHadReward height.toNat := by
  obtain ⟨sum, hsum, hval⟩ := totalOverageAtHeight_ok hmints hlt
  have hnonneg : 0 ≤ rewardTotal env genesisHadReward height.toNat := rewardTotal_nonneg _ _
  have hmin := toInt_minValue
  have hne : sum ≠ Int64.minValue := by
    rintro rfl
    omega
  have hneg : (-sum).toInt = -sum.toInt := by
    rw [Int64.toInt_neg, Int.bmod_eq_of_le (by omega) (by omega)]
  refine ⟨-sum, ?_, ?_, by rw [hneg, hval]⟩
  . rw [Consensus.totalOverage, hsum, Outcome.ok_bind, if_neg hne]
    rfl
  . intro heq
    rw [heq] at hneg
    omega

theorem overage_eq_minted (hlt : minted env height < 2 ^ 63)
    (h : (Consensus.overageAtHeight env height : Outcome ErrorKind Int64) = .ok overage)
    : Mints env height ∧ overage.toInt = -minted env height := by
  obtain ⟨reward, foundation, hreward, hfoundation, htoInt⟩ := Consensus.toInt_overage_of_lt h
  have hminted := minted_eq_of_ok hreward hfoundation
  refine ⟨⟨by rw [hreward]; rfl, by rw [hfoundation]; rfl⟩, ?_⟩
  rw [htoInt (by omega), hminted]

end

section

variable {env : Env} {G : Type} [AddCommGroup G] (g : Points env.secp G) {branch : List Block} {b : Block}

theorem sum_unspentOf (hnodup : (commitsOf branch).Nodup) (h : SpendsOnce branch)
    : g.sum ((unspentOf branch).map (·.commit)) = g.sum (commitsOf branch) - g.sum (spentOf branch) := by
  have hunspent : (unspentOf branch).map (·.commit)
      = (commitsOf branch).filter (· ∉ spentOf branch) := by
    rw [commitsOf, List.filter_map]
    rfl
  have hspent : ((commitsOf branch).filter (· ∈ spentOf branch)).Perm (spentOf branch) := by
    apply (List.perm_ext_iff_of_nodup (hnodup.filter _) h.nodup).mpr
    intro commit
    rw [List.mem_filter, decide_eq_true_eq]
    exact ⟨And.right, fun hmem => ⟨h.mem_commitsOf hmem, hmem⟩⟩
  have hall := (List.filter_append_perm (· ∈ spentOf branch) (commitsOf branch)).map g.point
  have hsum := hall.sum_eq
  rw [List.map_append, List.sum_append, (hspent.map g.point).sum_eq] at hsum
  rw [hunspent, eq_sub_iff_add_eq']
  simpa [Points.sum] using hsum

theorem sum_unspentOf_concat (hnodup : (commitsOf (branch ++ [b])).Nodup) (h : SpendsOnce branch)
    (h' : SpendsOnce (branch ++ [b]))
    : g.sum ((unspentOf (branch ++ [b])).map (·.commit))
        =
      g.sum ((unspentOf branch).map (·.commit)) + g.sum (b.body.outputs.map (·.commit))
        - g.sum (b.body.inputs.map (·.commit)) := by
  have hnodup' := hnodup.sublist (commitsOf_mono (List.prefix_append branch [b])).sublist
  rw [sum_unspentOf g hnodup h', sum_unspentOf g hnodup' h, commitsOf_concat, spentOf_concat,
    Points.sum_append, Points.sum_append]
  abel

-- The sums of a block, and that they were compared. The sums of the genesis block are not if it has no
-- kernels.
structure SumsOf (genesisHadReward : Bool) (branch : List Block) (b : Block) (sums : BlockSums)
    : Prop where
  utxoSum : g.point sums.utxoSum = g.sum ((unspentOf branch).map (·.commit))
    - rewardTotal env genesisHadReward b.header.height.toNat • g.unit
  kernelSum : g.point sums.kernelSum = g.sum ((kernelsOf branch).map (·.excess))
  checked : b.header.height ≠ 0 → Mints env b.header.height
    ∧ rewardTotal env genesisHadReward b.header.height.toNat < 2 ^ 63
    ∧ ∃ commits, Committed.offsetCommits env.secp b.header.totalKernelOffset = .ok commits
      ∧ g.point sums.utxoSum = g.point sums.kernelSum + g.sum commits

theorem SumsOf.next
    (h : SumsOf g genesisHadReward branch prev old)
    (hprev : batch.getPreviousHeader b.header = .ok prev.header)
    (hold : batch.getBlockSums (prev.hash env) = .ok old)
    (hheight : b.header.height.toNat = prev.header.height.toNat + 1)
    (hlt : rewardTotal env genesisHadReward b.header.height.toNat < 2 ^ 63)
    (hnodup : (commitsOf (branch ++ [b])).Nodup) (honce : SpendsOnce branch)
    (honce' : SpendsOnce (branch ++ [b])) (hsums : Pipe.newBlockSums env batch b = .ok sums)
    : SumsOf g genesisHadReward (branch ++ [b]) b sums := by
  have hstored : batch.getBlockSums (prev.header.hash env) = .ok old := hold
  simp only [Pipe.newBlockSums, hprev, hstored, Outcome.ok_bind, Outcome.bind_eq_ok,
    Outcome.mapErr_eq_ok, Outcome.pure_eq_ok, Outcome.ok.injEq, g.verifyKernelSums_eq_ok] at hsums
  obtain ⟨overage, hoverage, r, ⟨-, hutxo, hkernel, hoffset⟩, rfl⟩ := hsums
  have hne : b.header.height ≠ 0 := by
    intro hzero
    rw [hzero, UInt64.toNat_zero] at hheight
    omega
  have hle : minted env b.header.height ≤ rewardTotal env genesisHadReward b.header.height.toNat :=
    minted_le_rewardTotal genesisHadReward hne
  obtain ⟨hmints, htoInt⟩ := overage_eq_minted (lt_of_le_of_lt hle hlt) hoverage
  have htotal : rewardTotal env genesisHadReward b.header.height.toNat
      = rewardTotal env genesisHadReward prev.header.height.toNat + minted env b.header.height := by
    rw [hheight, rewardTotal_succ, ← hheight, UInt64.ofNat_toNat]
  simp only [BlockSums.committed, TransactionBody.committed, Points.sum_cons] at hutxo hkernel
  refine ⟨?_, ?_, fun _ => ⟨hmints, hlt, hoffset⟩⟩
  . rw [hutxo, h.utxoSum, htoInt, htotal, sum_unspentOf_concat g hnodup honce honce', neg_zsmul, add_zsmul]
    abel
  . rw [hkernel, h.kernelSum, kernelsOf_concat, List.map_append, Points.sum_append]

/-!
The sums that are stored with the blocks of a branch, while the mountain ranges hold it.
-/

structure Tallied (genesisHadReward : Bool) (branch : List Block) (kernelPmmr : PMMR TxKernel)
    (blockSums : AList fun _ : Hash => BlockSums) : Prop where
  kernelKept : kernelPmmr.backend.prunable = false
  sums : ∀ n b, branch[n]? = some b → ∃ sums, blockSums.lookup (b.hash env) = some sums
    ∧ SumsOf g genesisHadReward (branch.take (n + 1)) b sums

structure Summed (genesisHadReward : Bool) (genesis : Block) (c : Chain) (branch : List Block)
    : Prop where
  kept : Kept env genesis c branch
  tallied : Tallied g genesisHadReward branch c.txhashset.kernelPmmr c.store.blockSums

end

section

variable {env : Env} {G : Type} [AddCommGroup G] {g : Points env.secp G} {genesis b : Block}
  {c c' : Chain} {branch q : List Block} {genesisHadReward : Bool}

structure Following (env : Env) (c : Chain) (b : Block) (done : List Block) (fb prev : Block) : Prop where
  parent : (c.started env b).batch.getPreviousHeader fb.header = .ok prev.header
  prevHeight : prev.header.height.toNat + 1 = done.length
  height : fb.header.height.toNat = done.length
  fresh : ∀ other ∈ done, other.hash env ≠ fb.hash env

theorem Takes.following (h : Takes env genesis c c' branch q b isFork headHeader ext)
    (hinitial : done ++ [fb] <+: q ++ [b]) (hprev : done.getLast? = some prev)
    : Following env c b done fb prev := by
  rcases next_of_prefix hinitial with ⟨hfb, htake⟩ | ⟨rfl, rfl⟩
  . obtain ⟨m, hm⟩ : ∃ m, done.length = m + 1 := by
      apply Nat.exists_eq_add_one.mpr
      apply List.length_pos_iff.mpr
      rintro rfl
      contradiction
    have hdone {k : Nat} (hk : k < done.length) : q[k]? = done[k]? := by
      rw [← List.getElem?_take_of_lt (show k < done.length + 1 by omega), htake,
        List.getElem?_append_left hk]
    have hlast : q[m]? = some prev := by
      rw [hdone (by omega), ← hprev, List.getLast?_eq_getElem?, hm, Nat.add_sub_cancel]
    have hheight := h.side.height hfb
    refine ⟨?_, ?_, hheight, ?_⟩
    . have hheader : (headersOf q)[m + 1]? = some fb.header := by
        rw [headersOf, List.getElem?_map, ← hm, hfb]
        rfl
      have hparent := h.joins.side.headers.getPreviousHeader hheader
      rw [headersOf, List.getElem?_map, hlast] at hparent
      exact Outcome.okOr_eq_ok.mpr hparent
    . rw [h.side.height hlast, hm]
    . intro other hother heq
      obtain ⟨k, hk⟩ := List.getElem?_of_mem hother
      have hlt := (List.getElem?_eq_some_iff.mp hk).1
      rw [← hdone hlt] at hk
      have hstored := h.side.blocks other (List.mem_of_getElem? hk)
      rw [heq, h.side.blocks fb (List.mem_of_getElem? hfb), Option.some.injEq] at hstored
      have hsame := h.side.height hk
      rw [← hstored] at hsame
      omega
  . refine ⟨?_, (h.side.length_eq hprev).symm, h.height, ?_⟩
    . have hparent := h.joins.parent
      rw [hprev] at hparent
      exact Outcome.okOr_eq_ok.mpr hparent
    . intro other hother heq
      have hstored := h.side.blocks other hother
      rw [heq, h.fresh] at hstored
      contradiction

-- the extension of a block, when it holds some blocks of a branch
structure Tallying (g : Points env.secp G) (genesisHadReward : Bool) (c : Chain) (b : Block)
    (done : List Block) (ext : Extension) : Prop where
  ne_nil : done ≠ []
  frame : (c.started env b).batch.Frame ext.batch
  once : SpendsOnce done
  tallied : Tallied g genesisHadReward done ext.kernelPmmr ext.batch.db.blockSums

theorem Tallied.applyBlock {done : List Block} {fb prev : Block} {ext ext' : Extension}
    {sums : BlockSums} (h : Tallying g genesisHadReward c b done ext) (hprev : done.getLast? = some prev)
    (hfollowing : Following env c b done fb prev) (hnodup : (commitsOf (done ++ [fb])).Nodup)
    (honce : SpendsOnce (done ++ [fb]))
    (hlt : rewardTotal env genesisHadReward fb.header.height.toNat < 2 ^ 63)
    (hextends : Pipe.Extends env fb ext ext' sums)
    : Tallied g genesisHadReward (done ++ [fb]) ext'.kernelPmmr ext'.batch.db.blockSums := by
  obtain ⟨pos, p, -, hfollows⟩ := Extension.follows_applyBlock hextends.applied
  have hsums : ext'.batch.db.blockSums = ext.batch.db.blockSums.insert (fb.hash env) sums :=
    hfollows.batch.blockSums
  have hkept : ({ ext with batch := ext.batch.saveBlockSums (fb.header.hash env) sums } :
      Extension).kernelPmmr.backend.prunable = false := h.tallied.kernelKept
  refine ⟨Extension.kernelKept_applyBlock hkept hextends.applied, ?_⟩
  intro n other hother
  rw [hsums]
  rcases Nat.lt_or_ge n done.length with hn | hn
  . rw [List.getElem?_append_left hn] at hother
    rw [AList.lookup_insert_ne (hfollowing.fresh other (List.mem_of_getElem? hother)),
      List.take_append_of_le_length (by omega)]
    exact h.tallied.sums n other hother
  . have hlength : n = done.length := by
      have := (List.getElem?_eq_some_iff.mp hother).1
      rw [List.length_append, List.length_singleton] at this
      omega
    rw [hlength, List.getElem?_concat_length, Option.some.injEq] at hother
    subst hother
    rw [hlength, List.take_of_length_le (by simp)]
    refine ⟨sums, AList.lookup_insert _, ?_⟩
    have hlast : done[done.length - 1]? = some prev := by
      rw [← List.getLast?_eq_getElem?]
      exact hprev
    obtain ⟨old, hold, hsumsOf⟩ := h.tallied.sums _ prev hlast
    rw [List.take_of_length_le (by omega)] at hsumsOf
    refine SumsOf.next g hsumsOf ?_ (Outcome.okOr_eq_ok.mpr hold)
      (hfollowing.height.trans hfollowing.prevHeight.symm) hlt hnodup h.once honce
      hextends.summed
    have hparent := hfollowing.parent
    unfold Batch.getPreviousHeader Batch.getBlockHeader at hparent ⊢
    rw [h.frame.headers]
    exact hparent

-- a block that keeps to the rules above on its branch, and whose rewards are in the range of an i64
structure Countable (env : Env) (genesisHadReward : Bool) (genesis : Block) (c : Chain) (b : Block)
    : Prop where
  traceable : Traceable env genesis c b
  rewards : rewardTotal env genesisHadReward b.header.height.toNat < 2 ^ 63

theorem Summed.carries
    (h : Summed g genesisHadReward genesis c branch)
    (htakes : Takes env genesis c c' branch q b isFork headHeader ext) (htraced : Traced c branch q b)
    (hlt : rewardTotal env genesisHadReward b.header.height.toNat < 2 ^ 63)
    : Pipe.Carries env (c.started env b) headHeader branch q b
        fun done ext => Tallying g genesisHadReward c b done ext
          ∧ Keeping c done ext ∧ ext.Holds env done where
  start := by
    obtain ⟨last, hlast⟩ := h.kept.mapped.onBranch.exists_getLast
    have hne : branch ≠ [] := by
      rintro rfl
      contradiction
    exact ⟨⟨hne, .refl _, h.kept.leafSets.unspent.once, h.tallied⟩, (h.kept.carries htakes htraced).start⟩
  rewind i fb ext' rewindRmPos batch hfb hrewinds := by
    have hkeeping := (h.kept.carries htakes htraced).rewind i fb ext' rewindRmPos batch hfb hrewinds
    obtain ⟨last, hlast⟩ := h.kept.mapped.onBranch.exists_getLast
    have hhead := htakes.isHead
    rw [hlast] at hhead
    injection hhead with hhead
    subst hhead
    obtain ⟨hbatch, -⟩ := inputPosToRewind_eq_ok htakes.joins.main.headers
      (fun b hb => h.kept.mapped.bitmaps b (List.mem_of_mem_drop hb)) hfb hlast hrewinds.found
    have hne : branch.take (i + 1) ≠ [] := by
      have := List.mem_of_getElem? hfb
      intro hnil
      rw [List.take_eq_nil_iff] at hnil
      rcases hnil with hzero | rfl
      . omega
      . contradiction
    refine ⟨⟨hne, ?_, hkeeping.1.leafSets.unspent.once, ?_, ?_⟩, hkeeping⟩
    . rw [hrewinds.state, hbatch]
      exact .refl _
    . rw [hrewinds.state]
      exact h.tallied.kernelKept
    . intro n other hother
      rw [List.getElem?_take] at hother
      split at hother
      . rw [hrewinds.state, hbatch, List.take_take, Nat.min_eq_left (by omega)]
        exact h.tallied.sums n other hother
      . contradiction
  apply done fb ext ext' sums hinitial hext hextends := by
    have hkeeping := (h.kept.carries htakes htraced).apply done fb ext ext' sums hinitial hext.2 hextends
    have hprev := List.getLast?_eq_some_getLast hext.1.ne_nil
    have hfollowing := htakes.following hinitial hprev
    have honce := hkeeping.1.leafSets.unspent.once
    have hle : fb.header.height.toNat ≤ b.header.height.toNat := by
      have hlength := hinitial.length_le
      rw [List.length_append, List.length_append, List.length_singleton, List.length_singleton] at hlength
      rw [hfollowing.height, htakes.height]
      omega
    refine ⟨⟨by simp, ?_, honce, ?_⟩, hkeeping⟩
    . obtain ⟨pos, p, -, hfollows⟩ := Extension.follows_applyBlock hextends.applied
      exact (hext.1.frame.trans (ext.batch.frame_saveBlockSums _ _)).trans hfollows.batch.frame
    . exact Tallied.applyBlock hext.1 hprev hfollowing
        (htraced.created.sublist (commitsOf_mono hinitial).sublist) honce
        (lt_of_le_of_lt (rewardTotal_mono genesisHadReward hle) hlt) hextends

theorem Summed.takes
    (h : Summed g genesisHadReward genesis c branch)
    (htakes : Takes env genesis c c' branch q b isFork headHeader ext) (htraced : Traced c branch q b)
    (hlt : rewardTotal env genesisHadReward b.header.height.toNat < 2 ^ 63) (hsettled : c'.Settled)
    : ∃ branch', Summed g genesisHadReward genesis c' branch' := by
  have hon := h.kept.mapped.onBranch
  obtain ⟨ext₀, ext₁, sums, head, -, ⟨htallying, -⟩, hresult⟩ :=
    htakes.result hon (h.carries htakes htraced hlt)
  obtain ⟨branch', hkept⟩ := h.kept.takes htakes htraced hsettled
  have hbranch := hkept.mapped.onBranch.unique (hresult.onBranch hon htakes hsettled)
  rw [← hbranch] at hkept
  refine ⟨_, hkept, ?_⟩
  rw [hresult.chain]
  split
  . exact ⟨htallying.tallied.kernelKept, htallying.tallied.sums⟩
  . exact h.tallied

theorem Summed.congr (h : Summed g genesisHadReward genesis c branch) (hstore : c'.store = c.store)
    (htrees : c'.txhashset = c.txhashset)
    : Summed g genesisHadReward genesis c' branch := by
  refine ⟨h.kept.congr hstore htrees, ?_⟩
  rw [hstore, htrees]
  exact h.tallied

theorem Summed.processBlockSingle
    (h : Summed g genesisHadReward genesis c branch)
    (hcountable : Countable env genesisHadReward genesis c b)
    (hreturns : (c.processBlockSingle env clock b opts).1.Returns)
    : ∃ branch', Summed g genesisHadReward genesis (c.processBlockSingle env clock b opts).2 branch' := by
  have htraceable := hcountable.traceable
  have hon := h.kept.mapped.onBranch
  rcases hon.processBlockSingle htraceable.height rfl hreturns
    with ⟨hsettled, q, isFork, headHeader, ext, htakes⟩ | ⟨hstore, htrees⟩
  . obtain ⟨prev, hprev, hlink⟩ := htakes.parent
    have htraced := htraceable.traced branch q prev hon.current htakes.side hprev hlink
    exact h.takes htakes htraced hcountable.rewards hsettled
  . exact ⟨branch, h.congr hstore htrees⟩

-- Extension::validate_kernel_sums in an extension of the head
def validateKernelSums (env : Env) (c : Chain) : Outcome ErrorKind (Commitment × Commitment) := do
  let header ← c.store.batch.headHeader
  (Extension.new c.state header).validateKernelSums env

theorem OnBranch.getHeaderByHeight_zero (h : OnBranch env genesis c branch)
    : Epic.getHeaderByHeight c.txhashset.headerPmmr c.store.batch 0 = .ok genesis.header := by
  have hfirst := h.main.isFirst
  rw [List.head?_eq_getElem?] at hfirst
  have hhash := h.holds.tracks.getHeaderHash 0
  rw [headersOf, List.getElem?_map, hfirst] at hhash
  unfold Epic.getHeaderByHeight
  rw [UInt64.toNat_zero, hhash]
  simp only [Option.map_some, Outcome.okOr, Outcome.ok_bind]
  exact Outcome.okOr_eq_ok.mpr (h.main.getBlockHeader (List.mem_of_getElem? hfirst))

def committedOf (branch : List Block) : Committed where
  inputsCommitted := []
  outputsCommitted := (unspentOf branch).map (·.commit)
  kernelsCommitted := (kernelsOf branch).map (·.excess)

def kernelSumsOf (env : Env) (genesis : Block) (branch : List Block) (last : Block)
    : Outcome ErrorKind (Commitment × Commitment) := do
  let overage ← Consensus.totalOverage env (decide (genesis.header.kernelMmrSize > 0)) last.header.height
  ((committedOf branch).verifyKernelSums env.secp overage last.header.totalKernelOffset).mapErr .committed

theorem Summed.validateKernelSums_eq (h : Summed g genesisHadReward genesis c branch)
    (hlast : branch.getLast? = some last)
    : c.validateKernelSums env = kernelSumsOf env genesis branch last := by
  have hon := h.kept.mapped.onBranch
  have hholds : (Extension.new c.state last.header).Holds env branch := hon.holds
  have hcommitted : (Extension.new c.state last.header).committed = committedOf branch := by
    have houtputs := Extension.outputsCommitted_eq hholds h.kept.leafSets.unspent
    have hkernels := Extension.kernelsCommitted_eq hholds h.tallied.kernelKept
    unfold committedOf
    rw [← houtputs, ← hkernels]
    rfl
  have hgenesis : Epic.getHeaderByHeight (Extension.new c.state last.header).headerPmmr
      (Extension.new c.state last.header).batch 0 = .ok genesis.header := hon.getHeaderByHeight_zero
  rw [Chain.validateKernelSums, hon.batch_headHeader hlast, Outcome.ok_bind,
    Extension.validateKernelSums, hgenesis, Outcome.ok_bind, hcommitted]
  rfl

theorem Summed.validateKernelSums
    (h : Summed g (decide (genesis.header.kernelMmrSize > 0)) genesis c branch)
    (hlast : branch.getLast? = some last) (hheight : last.header.height ≠ 0)
    : (c.validateKernelSums env).isOk = true := by
  have hmain := h.kept.mapped.onBranch.main
  have hindex := hlast
  rw [List.getLast?_eq_getElem?] at hindex
  have hlength := hmain.length_eq hlast
  obtain ⟨sums, -, hsums⟩ := h.tallied.sums _ last hindex
  rw [List.take_of_length_le (by omega)] at hsums
  obtain ⟨-, hlt, commits, hcommits, hchecked⟩ := hsums.checked hheight
  have hmints : ∀ i, 1 ≤ i → i ≤ last.header.height.toNat → Mints env (UInt64.ofNat i) := by
    intro i hi hle
    obtain ⟨b, hb⟩ : ∃ b, branch[i]? = some b := ⟨_, List.getElem?_eq_getElem (by omega)⟩
    obtain ⟨sums', -, hsums'⟩ := h.tallied.sums i b hb
    have hheight' := hmain.height hb
    rw [← hheight', UInt64.ofNat_toNat]
    apply (hsums'.checked _).1
    intro hzero
    rw [hzero, UInt64.toNat_zero] at hheight'
    omega
  obtain ⟨overage, hoverage, hmin, htoInt⟩ := totalOverage_ok hmints hlt
  have heq : g.sum (committedOf branch).outputsCommitted + overage.toInt • g.unit
        - g.sum (committedOf branch).inputsCommitted
      = g.sum (committedOf branch).kernelsCommitted + g.sum commits := by
    unfold committedOf
    rw [← hsums.kernelSum, ← hchecked, hsums.utxoSum, htoInt, neg_zsmul, Points.sum_nil]
    abel
  obtain ⟨r, hr⟩ := g.verifyKernelSums_ok hmin hcommits heq
  rw [h.validateKernelSums_eq hlast, kernelSumsOf, hoverage, Outcome.ok_bind, hr]
  rfl

theorem sumsOf_genesis (hheight : genesis.header.height = 0)
    (hkernels : genesis.header.kernelMmrSize.toNat = mmrSize genesis.body.kernels.length)
    (hinputs : genesis.body.inputs = [])
    (hempty : genesis.body.kernels = [] → genesis.body.outputs = [])
    (h : genesisSums env genesis = .ok sums)
    : SumsOf g (decide (genesis.header.kernelMmrSize > 0)) [genesis] genesis sums := by
  have hunspent : unspentOf [genesis] = genesis.body.outputs := by
    simp [unspentOf, outputsOf, spentOf, hinputs]
  have hsize : genesis.header.kernelMmrSize > 0 ↔ genesis.body.kernels.length > 0 := by
    have hle := le_mmrSize genesis.body.kernels.length
    rw [gt_iff_lt, UInt64.lt_iff_toNat_lt, hkernels, UInt64.toNat_zero]
    constructor
    . intro hpos
      by_contra hzero
      rw [show genesis.body.kernels.length = 0 by omega] at hpos
      exact absurd mmrSize_zero (by omega)
    . intro hpos
      omega
  unfold genesisSums at h
  dsimp only at h
  have hnone : genesis.header.height ≠ 0 → False := fun hne => hne hheight
  split at h
  . next hpos =>
    simp only [Outcome.bind_eq_ok, Outcome.mapErr_eq_ok, Outcome.pure_eq_ok, Outcome.ok.injEq,
      g.verifyKernelSums_eq_ok, hheight] at h
    obtain ⟨overage, hoverage, r, ⟨-, hutxo, hkernel, -⟩, rfl⟩ := h
    have hminted := minted_zero env
    obtain ⟨-, htoInt⟩ := overage_eq_minted (by omega) hoverage
    simp only [BlockSums.committed, TransactionBody.committed, Points.sum_cons, g.point_zero, zero_add,
      hinputs, List.map_nil, Points.sum_nil, sub_zero, htoInt] at hutxo hkernel
    refine ⟨?_, ?_, fun hne => (hnone hne).elim⟩
    . rw [hutxo, hunspent, hheight, UInt64.toNat_zero, rewardTotal_zero,
        if_pos (decide_eq_true (hsize.mpr hpos)), neg_zsmul]
      abel
    . rw [hkernel]
      simp [kernelsOf]
  . next hpos =>
    have hnil : genesis.body.kernels = [] := List.length_eq_zero_iff.mp (by omega)
    injection h with h
    subst h
    refine ⟨?_, ?_, fun hne => (hnone hne).elim⟩
    . rw [g.point_zero, hunspent, hempty hnil, hheight, UInt64.toNat_zero, rewardTotal_zero,
        if_neg (by simpa using fun hlt => hpos (hsize.mp hlt))]
      simp
    . rw [g.point_zero]
      simp [kernelsOf, hnil]

theorem summed_init {powVerifier : BlockHeader → Bool} {archiveMode : Bool}
    (hheight : genesis.header.height = 0)
    (houtputs : genesis.header.outputMmrSize.toNat = mmrSize genesis.body.outputs.length)
    (hkernels : genesis.header.kernelMmrSize.toNat = mmrSize genesis.body.kernels.length)
    (hinputs : genesis.body.inputs = []) (hnodup : (commitsOf [genesis]).Nodup)
    (hempty : genesis.body.kernels = [] → genesis.body.outputs = [])
    (h : init env powVerifier archiveMode genesis = .ok c)
    : Summed g (decide (genesis.header.kernelMmrSize > 0)) genesis c [genesis] := by
  have hkept := kept_init hheight (.singleton houtputs hkernels) hinputs hnodup h
  obtain ⟨sums, ext, hstarts⟩ := init_eq_ok h
  have hkernelKept : ext.kernelPmmr.backend.prunable = false :=
    Extension.kernelKept_applyBlock rfl hstarts.applied
  refine ⟨hkept, ?_⟩
  rw [hstarts.txhashset]
  refine ⟨hkernelKept, fun n b hb => ?_⟩
  cases n with
  | zero =>
    simp only [List.getElem?_cons_zero, Option.some.injEq] at hb
    subst hb
    rw [hstarts.store]
    exact ⟨sums, AList.lookup_insert _, sumsOf_genesis hheight hkernels hinputs hempty hstarts.summed⟩
  | succ n => simp at hb

def SumsLaw (env : Env) (g : Points env.secp G) (genesis : Block) (c : Chain) : Prop :=
  ∃ branch,
    Current env genesis c branch
      ∧
    ∀ n b, branch[n]? = some b → ∃ sums,
      c.store.blockSums.lookup (b.hash env) = some sums
        ∧
      g.point sums.utxoSum = g.sum ((unspentOf (branch.take (n + 1))).map (·.commit))
        - rewardTotal env (decide (genesis.header.kernelMmrSize > 0)) n • g.unit
        ∧
      g.point sums.kernelSum = g.sum ((kernelsOf (branch.take (n + 1))).map (·.excess))

theorem block_sums_eq_full_sums {powVerifier : BlockHeader → Bool} {archiveMode : Bool}
    (g : Points env.secp G) (hstart : init env powVerifier archiveMode genesis = .ok c)
    (hheight : genesis.header.height = 0)
    (houtputs : genesis.header.outputMmrSize.toNat = mmrSize genesis.body.outputs.length)
    (hkernels : genesis.header.kernelMmrSize.toNat = mmrSize genesis.body.kernels.length)
    (hinputs : genesis.body.inputs = []) (hnodup : (genesis.body.outputs.map (·.commit)).Nodup)
    (hempty : genesis.body.kernels = [] → genesis.body.outputs = [])
    (hrun : ProcessRun env
      (Countable env (decide (genesis.header.kernelMmrSize > 0)) genesis) c c')
    : SumsLaw env g genesis c'
        ∧
      ((c.validateKernelSums env).isOk = true → (c'.validateKernelSums env).isOk = true) := by
  have hnodup : (commitsOf [genesis]).Nodup := by
    simpa [commitsOf, outputsOf] using hnodup
  have hinit : Summed g _ genesis c [genesis] :=
    summed_init hheight houtputs hkernels hinputs hnodup hempty hstart
  obtain ⟨branch, h⟩ := hrun.invariant (P := fun c => ∃ branch, Summed g _ genesis c branch)
    (by
      rintro c pool ⟨branch, h⟩
      exact ⟨branch, h.congr rfl rfl⟩)
    (by
      rintro clock c b opts hcountable ⟨branch, h⟩ hreturns
      exact h.processBlockSingle hcountable hreturns)
    ⟨[genesis], hinit⟩
  have hmain := h.kept.mapped.onBranch.main
  refine ⟨⟨branch, h.kept.mapped.onBranch.current, fun n b hb => ?_⟩, fun hok => ?_⟩
  . obtain ⟨sums, hstored, hsums⟩ := h.tallied.sums n b hb
    have hutxo := hsums.utxoSum
    rw [hmain.height hb] at hutxo
    exact ⟨sums, hstored, hutxo, hsums.kernelSum⟩
  . obtain ⟨last, hlast⟩ := h.kept.mapped.onBranch.exists_getLast
    by_cases hzero : last.header.height = 0
    . -- nothing but the genesis block
      have hlength := hmain.length_eq hlast
      rw [hzero, UInt64.toNat_zero] at hlength
      obtain ⟨b, rfl⟩ := List.length_eq_one_iff.mp hlength
      have hfirst : b = genesis := Option.some.inj hmain.isFirst
      subst hfirst
      rw [h.validateKernelSums_eq rfl, ← hinit.validateKernelSums_eq rfl]
      exact hok
    . exact h.validateKernelSums hlast hzero

end

namespace Sample.Grouped

def env : Env := { Sample.env with secp := Modular.secp }

def output (features : OutputFeatures) (value blind : Nat) : Output :=
  ⟨features, Modular.encode (value + 2 ^ 64 * blind), .zero⟩

def kernel (features : KernelFeatures) (blind : Nat) : TxKernel :=
  ⟨features, 0, 0, Modular.encode (2 ^ 64 * blind), .replicate 64 0⟩

def coinbase (blind : Nat) : TransactionBody :=
  ⟨[], [output .coinbase 1457920000 blind], [kernel .coinbase blind]⟩

-- with a reward
def genesis : Block :=
  ⟨{ Sample.genesis.header with outputMmrSize := 1, kernelMmrSize := 1 }, [],
    [output .coinbase 1600000000 11], [kernel .coinbase 11]⟩

def start : Chain := startOf env genesis

theorem init_start
    : init env empty.powVerifier empty.archiveMode genesis = .ok start := init_startOf (by decide +kernel)

def process (c : Chain) (b : Block) : Chain := (c.processBlock env clock b .none).2

def main₁ : Block := next (applied start []) genesis 2 (coinbase 1)

def main₂ : Block := next (applied start [main₁]) main₁ 3 (coinbase 2)

def side₁ : Block :=
  next (applied start []) genesis 4
    ⟨[], [output .plain 0 5, output .coinbase 1457920000 3], [kernel .plain 5, kernel .coinbase 3]⟩

-- spends the plain output of the block before it
def side₂ : Block :=
  next (applied start [side₁]) side₁ 5
    ⟨[⟨.plain, Modular.encode (2 ^ 64 * 5)⟩], [output .plain 0 6, output .coinbase 1457920000 4],
      [kernel .plain 1, kernel .coinbase 4]⟩

def side₃ : Block := next (applied start [side₁, side₂]) side₂ 6 (coinbase 7)

-- three blocks that leave the side branch before the output is spent
def back₂ : Block := next (applied start [side₁]) side₁ 7 (coinbase 8)

def back₃ : Block := next (applied start [side₁, back₂]) back₂ 8 (coinbase 9)

def back₄ : Block := next (applied start [side₁, back₂, back₃]) back₃ 9 (coinbase 10)

def blocks : List Block := [main₁, main₂, side₁, side₂, side₃, back₂, back₃, back₄]

def AllReturn (c : Chain) (blocks : List Block) : Prop :=
  match blocks with
  | [] => True
  | b :: blocks => (c.processBlock env clock b .none).1.Returns ∧ AllReturn (process c b) blocks

instance decidableAllReturn (c : Chain) (blocks : List Block) : Decidable (AllReturn c blocks) :=
  match blocks with
  | [] => inferInstanceAs (Decidable True)
  | b :: blocks =>
    have := decidableAllReturn (process c b) blocks
    inferInstanceAs (Decidable (_ ∧ _))

theorem AllReturn.processRun {c₀ c : Chain} {blocks : List Block} (h : AllReturn c blocks)
    (hrun : ProcessRun env (fun _ _ => True) c₀ c)
    : ProcessRun env (fun _ _ => True) c₀ (blocks.foldl process c) := by
  induction blocks generalizing c with
  | nil => exact hrun
  | cons b blocks ih => exact ih h.2 (.call clock b .none hrun (fun _ _ _ => trivial) h.1)

def spent : Chain := process (process start side₁) side₂

theorem extends_spent
    : Extends env genesis start [genesis] side₁
        ∧ rewardTotal env true side₁.header.height.toNat < 2 ^ 63
        ∧ (start.processBlock env clock side₁ .none).1.isOk = true
        ∧ (singles env clock start side₁ .none).length = 1
        ∧ Extends env genesis (process start side₁) [genesis, side₁] side₂
        ∧ rewardTotal env true side₂.header.height.toNat < 2 ^ 63
        ∧ ((process start side₁).processBlock env clock side₂ .none).1.isOk = true
        ∧ (singles env clock (process start side₁) side₂ .none).length = 1 := by
  decide +kernel

theorem processRun_spent
    : ProcessRun env (Countable env true genesis) start spent := by
  obtain ⟨h₁, hrewards₁, hok₁, hlength₁, h₂, hrewards₂, hok₂, hlength₂⟩ := extends_spent
  have hrun := ProcessRun.single (Q := Countable env true genesis) .start ⟨h₁.traceable, hrewards₁⟩ hok₁ hlength₁
  exact hrun.single ⟨h₂.traceable, hrewards₂⟩ hok₂ hlength₂

end Sample.Grouped

-- the second block spends an output of the first one
open Sample Sample.Grouped in
theorem block_sums_eq_full_sums_side₂
    : ProcessRun Grouped.env (Countable Grouped.env true Grouped.genesis) Grouped.start Grouped.spent
        ∧
      SumsLaw Grouped.env Modular.points Grouped.genesis Grouped.spent
        ∧
      (Grouped.spent.validateKernelSums Grouped.env).isOk = true := by
  have hrun := Grouped.processRun_spent
  have hlaw := block_sums_eq_full_sums Modular.points Grouped.init_start rfl rfl rfl rfl (by decide)
    (fun hnil => absurd hnil (by decide)) hrun
  exact ⟨hrun, hlaw.1, hlaw.2 (by decide +kernel)⟩

-- The side branch becomes the main one and is left again. The output that it spent stays spent.
open Sample Sample.Grouped in
theorem rewound_output_stays_spent
    : init Grouped.env empty.powVerifier empty.archiveMode Grouped.genesis = .ok Grouped.start
        ∧
      ProcessRun Grouped.env (fun _ _ => True) Grouped.start
        (blocks.foldl Grouped.process Grouped.start)
        ∧
      (Grouped.start.validateKernelSums Grouped.env).isOk = true
        ∧
      (blocks.foldl Grouped.process Grouped.start).validateKernelSums Grouped.env
        = .err (.committed .kernelSumMismatch) := by
  have hfacts : AllReturn Grouped.start blocks
      ∧ (Grouped.start.validateKernelSums Grouped.env).isOk = true
      ∧ (blocks.foldl Grouped.process Grouped.start).validateKernelSums Grouped.env
        = .err (.committed .kernelSumMismatch) := by decide +kernel
  exact ⟨Grouped.init_start, hfacts.1.processRun .start, hfacts.2⟩

end Chain

end Epic
