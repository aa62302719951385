import Epic.Core.Committed.Modular
import Epic.Core.Transaction.CutThrough
import Epic.Servers.MineBlock

/-!
This module contains the weight of the blocks a miner assembles. The pool leaves room for one coinbase, an
output and a kernel. A block at a foundation height has two of them.
-/

namespace Epic

open MachineInt

namespace TransactionBody

theorem weightAsBlock_eq (inputLen outputLen kernelLen : Nat)
    : weightAsBlock inputLen outputLen kernelLen
        = min (inputLen + 21 * outputLen + 3 * kernelLen) (2 ^ 64 - 1) := by
  have hinput : Consensus.blockInputWeight.toNat = 1 := rfl
  have houtput : Consensus.blockOutputWeight.toNat = 21 := rfl
  have hkernel : Consensus.blockKernelWeight.toNat = 3 := rfl
  simp only [weightAsBlock, hinput, houtput, hkernel]
  omega

theorem verifyWeight_asBlock {ct : ChainTypes} {body : TransactionBody}
    : body.verifyWeight ct .asBlock = .ok () ↔ body.bodyWeightAsBlock ≤ (Global.maxBlockWeight ct).toNat :=
  Outcome.require_eq_ok

theorem verifyWeight_asLimitedTransaction {ct : ChainTypes} {maxWeight : UInt64} {body : TransactionBody}
    : body.verifyWeight ct (.asLimitedTransaction maxWeight) = .ok ()
        ↔
      body.bodyWeightAsBlock ≤ min (Global.maxBlockWeight ct).toNat maxWeight.toNat - 24 :=
  Outcome.require_eq_ok

end TransactionBody

namespace Transaction

theorem verifyWeight_of_validate {env : Env} {weighting : Weighting} {tx : Transaction}
    (h : tx.validate env weighting = .ok ())
    : tx.body.verifyWeight env.chainType weighting = .ok () := by
  unfold validate TransactionBody.validate TransactionBody.validateRead at h
  simp only [Outcome.bind_eq_ok] at h
  obtain ⟨⟨⟩, ⟨⟨⟩, ⟨⟨⟩, hweight, -⟩, -⟩, -⟩ := h
  exact hweight

theorem CutsThrough.length_eq {env : Env} {inputs inputs' : List Input} {outputs outputs' : List Output}
    (h : CutsThrough env inputs inputs' outputs outputs')
    (hne : ∀ i ∈ inputs, ∀ o ∈ outputs, i.hash env ≠ o.hash env)
    : inputs'.length = inputs.length ∧ outputs'.length = outputs.length := by
  have hzero (x : Hash) : (inputs.map (Input.hash env)).count x = 0
      ∨ (outputs.map (Output.hash env)).count x = 0 := by
    rw [List.count_eq_zero, List.count_eq_zero, ← not_and_or]
    rintro ⟨hinput, houtput⟩
    obtain ⟨i, hi, rfl⟩ := List.mem_map.mp hinput
    obtain ⟨o, ho, heq⟩ := List.mem_map.mp houtput
    exact hne i hi o ho heq.symm
  have hinputs : (inputs'.map (Input.hash env)).Perm (inputs.map (Input.hash env)) := by
    rw [List.perm_iff_count]
    intro x
    rw [h.count_inputs]
    rcases hzero x with hx | hx <;> omega
  have houtputs : (outputs'.map (Output.hash env)).Perm (outputs.map (Output.hash env)) := by
    rw [List.perm_iff_count]
    intro x
    rw [h.count_outputs]
    rcases hzero x with hx | hx <;> omega
  have hinputs := hinputs.length_eq
  have houtputs := houtputs.length_eq
  rw [List.length_map, List.length_map] at hinputs houtputs
  exact ⟨hinputs, houtputs⟩

end Transaction

namespace Pool

theorem validateNext_ok {env : Env} {pool : Pool} {extraTx : Option Transaction} {header : BlockHeader}
    {weighting : Weighting} {validTxs : List Transaction} {tx aggTx : Transaction} {sums : BlockSums}
    (hagg : Transaction.aggregate env (extraTx.toList ++ validTxs ++ [tx]) = .ok aggTx)
    (hvalid : pool.validateRawTx env aggTx header weighting = .ok sums)
    : pool.validateNext env extraTx header weighting validTxs tx = .ok (validTxs ++ [tx]) := by
  refine Outcome.bind_eq_ok.mpr ⟨aggTx, Outcome.mapErr_eq_ok.mpr hagg, ?_⟩
  rw [hvalid]
  rfl

theorem prepareMineableTransactions_weight {env : Env} {pool : Pool} {maxWeight : UInt64}
    {txs : List Transaction} {aggTx : Transaction}
    (h : pool.prepareMineableTransactions env maxWeight = .ok txs)
    (hagg : Transaction.aggregate env txs = .ok aggTx)
    : aggTx.body.bodyWeightAsBlock
        ≤ min (Global.maxBlockWeight env.chainType).toNat maxWeight.toNat - 24 := by
  simp only [prepareMineableTransactions, Outcome.bind_eq_ok] at h
  obtain ⟨sorted, -, header, -, h⟩ := h
  revert aggTx
  refine Outcome.foldlM_eq_ok (fun _ validTxs => ∀ {aggTx : Transaction},
    Transaction.aggregate env validTxs = .ok aggTx → aggTx.body.bodyWeightAsBlock
      ≤ min (Global.maxBlockWeight env.chainType).toNat maxWeight.toNat - 24) ?_ ?_ h
  . intro aggTx hagg
    obtain rfl := Outcome.ok.inj hagg
    exact Nat.zero_le _
  . intro _ tx validTxs validTxs' _ hlight hstep
    obtain ⟨aggTx, hagg, hstep⟩ := Outcome.bind_eq_ok.mp hstep
    rw [Outcome.mapErr_eq_ok] at hagg
    split at hstep
    . next hvalid =>
      rw [Outcome.pure_eq_ok, Outcome.ok.injEq] at hstep
      subst hstep
      intro aggTx' hagg'
      obtain rfl := Outcome.ok.inj (hagg.symm.trans hagg')
      simp only [validateRawTx, Outcome.bind_eq_ok, Outcome.mapErr_eq_ok] at hvalid
      obtain ⟨⟨⟩, hvalid, -⟩ := hvalid
      exact TransactionBody.verifyWeight_asLimitedTransaction.mp (Transaction.verifyWeight_of_validate hvalid)
    . rw [Outcome.pure_eq_ok, Outcome.ok.injEq] at hstep
      exact hstep ▸ hlight
    . contradiction
    . contradiction

end Pool

namespace Block

variable {env : Env} {now : DateTime} {prev : BlockHeader} {difficulty : Difficulty} {b : Block}

theorem weight_fromAggregate_le {aggTx : Transaction} (h : fromAggregate env now prev aggTx difficulty = .ok b)
    : b.body.bodyWeightAsBlock ≤ aggTx.body.bodyWeightAsBlock := by
  obtain ⟨-, inputs, outputs, hcut, hbody⟩ := fromAggregate_eq_ok h
  obtain ⟨hinputs, houtputs⟩ := Transaction.length_cutThrough_le hcut
  simp only [hbody, TransactionBody.bodyWeightAsBlock, TransactionBody.sort, length_sortByHash,
    TransactionBody.weightAsBlock_eq]
  omega

theorem fromCoinbases_singleton (tx : Transaction) (reward foundation : Output × TxKernel)
    : fromCoinbases env now prev [tx] reward foundation difficulty
        =
      fromAggregate env now prev
        ((((tx.withOutput env reward.1).withKernel env reward.2).withOutput env foundation.1).withKernel env
          foundation.2)
        difficulty := rfl

theorem fromAggregate_ok (now : DateTime) {aggTx : Transaction} {offset : BlindingFactor} {height : UInt64}
    {total : Difficulty} {inputs : List Input} {outputs : List Output}
    (hoffset : sumKernelOffsets env.secp [aggTx.offset, prev.totalKernelOffset] [] = .ok offset)
    (hheight : (add env.overflowChecks prev.height 1 : Outcome BlockError UInt64) = .ok height)
    (htotal : (difficulty.add env.overflowChecks prev.pow.totalDifficulty : Outcome BlockError Difficulty)
      = .ok total)
    (hcut : Transaction.cutThrough env aggTx.body.inputs aggTx.body.outputs = .ok (inputs, outputs))
    : ∃ header, fromAggregate env now prev aggTx difficulty
        = .ok ⟨header, (⟨inputs, outputs, aggTx.body.kernels⟩ : TransactionBody).sort env⟩ := by
  apply Exists.intro
  unfold fromAggregate cutThrough
  simp only [Outcome.bind_eq_ok, Outcome.mapErr_eq_ok]
  exact ⟨offset, hoffset, height, hheight, total, htotal, (inputs, outputs), hcut, _, rfl, rfl⟩

theorem weight_withCoinbase_le (env : Env) (tx : Transaction) (output : Output) (kernel : TxKernel)
    : ((tx.withOutput env output).withKernel env kernel).body.bodyWeightAsBlock
        ≤ tx.body.bodyWeightAsBlock + 24 := by
  have houtputs := length_insertByHash_le (fun o : Output => o.hash env) output tx.body.outputs
  have hkernels := length_insertByHash_le (fun k : TxKernel => k.hash env) kernel tx.body.kernels
  simp only [Transaction.withKernel, Transaction.withOutput, TransactionBody.withKernel,
    TransactionBody.withOutput, TransactionBody.bodyWeightAsBlock, TransactionBody.weightAsBlock_eq]
  omega

end Block

namespace MineBlock

-- a block at a height, with transactions of a pool and any coinbases
structure Assembled (env : Env) (maxWeight height : UInt64) (b : Block) : Prop where
  exists_sources : ∃ (pool : Pool) (src : Sources) (head : BlockHeader) (txs : List Transaction)
      (coinbase : Output × TxKernel) (difficulty : Difficulty),
    src.mineable = pool.prepareMineableTransactions env maxWeight
      ∧ transactions src = .ok txs
      ∧ (add env.overflowChecks head.height 1 : Outcome ServersError UInt64) = .ok height
      ∧ assemble env src head txs coinbase difficulty height = .ok b

section

variable {env : Env} {maxWeight height : UInt64} {b : Block}

theorem transactions_of_ok {src : Sources} {txs : List Transaction} (h : src.mineable = .ok txs)
    : transactions src = .ok txs := by
  rw [transactions, h]

theorem weight_transactions_le {pool : Pool} {src : Sources} {txs : List Transaction} {aggTx : Transaction}
    (hsrc : src.mineable = pool.prepareMineableTransactions env maxWeight) (htxs : transactions src = .ok txs)
    (hagg : Transaction.aggregate env txs = .ok aggTx)
    : aggTx.body.bodyWeightAsBlock
        ≤ min (Global.maxBlockWeight env.chainType).toNat maxWeight.toNat - 24 := by
  unfold transactions at htxs
  split at htxs
  . next hmineable =>
    obtain rfl := Outcome.ok.inj htxs
    exact Pool.prepareMineableTransactions_weight (hsrc.symm.trans hmineable) hagg
  . obtain rfl := Outcome.ok.inj htxs
    obtain rfl := Outcome.ok.inj hagg
    exact Nat.zero_le _
  . contradiction
  . contradiction

theorem Assembled.weight_le (h : Assembled env maxWeight height b)
    : b.body.bodyWeightAsBlock ≤ min (Global.maxBlockWeight env.chainType).toNat maxWeight.toNat - 24
        + (if (Consensus.isFoundationHeight env height : Outcome ServersError Bool) = .ok true then 48 else 24) := by
  obtain ⟨pool, src, head, txs, coinbase, difficulty, hsrc, htxs, -, hb⟩ := h.exists_sources
  obtain ⟨isFoundation, hfoundation, hb⟩ := Outcome.bind_eq_ok.mp hb
  rw [hfoundation]
  cases isFoundation with
  | true =>
    rw [if_pos rfl] at hb ⊢
    obtain ⟨cbData, -, hb⟩ := Outcome.bind_eq_ok.mp hb
    rw [Outcome.mapErr_eq_ok] at hb
    obtain ⟨aggTx, hagg, hb⟩ := Outcome.bind_eq_ok.mp hb
    have hlight := weight_transactions_le hsrc htxs (Outcome.mapErr_eq_ok.mp hagg)
    have hreward := Block.weight_withCoinbase_le env aggTx coinbase.1 coinbase.2
    have hboth := Block.weight_withCoinbase_le env
      ((aggTx.withOutput env coinbase.1).withKernel env coinbase.2) cbData.1 cbData.2
    have hle := Block.weight_fromAggregate_le hb
    omega
  | false =>
    rw [if_neg (by simp)] at hb ⊢
    rw [Outcome.mapErr_eq_ok] at hb
    obtain ⟨aggTx, hagg, hb⟩ := Outcome.bind_eq_ok.mp hb
    have hlight := weight_transactions_le hsrc htxs (Outcome.mapErr_eq_ok.mp hagg)
    have hreward := Block.weight_withCoinbase_le env aggTx coinbase.1 coinbase.2
    have hle := Block.weight_fromAggregate_le hb
    omega

end

/-!
A pool with one transaction that fills a block up to the room for a coinbase. The library accepts
everything, and the hash of an input is as long as its number.
-/

namespace Crowded

def secp : Secp where
  commitSum _ _ := some commitToZeroValue
  commitValue _ := some commitToZeroValue
  commit _ _ := some commitToZeroValue
  secretKey bf := some bf
  blindSum _ _ := some .zero
  verifyBulletProofMulti _ _ := true
  toPubkey _ := some []
  verifySingle _ _ _ := true
  fromRawData data := some data

def blake2b (bs : List UInt8) : Hash := ⟨.replicate (Bytes.ofBE bs) 0⟩

def env (base : Env) : Env := { base with secp := secp, blake2b := blake2b }

def input (i : Nat) : Input := ⟨.plain, Modular.encode i⟩

def coinbase (i : Nat) : Output × TxKernel :=
  (⟨.coinbase, Modular.encode i, .zero⟩, ⟨.coinbase, 0, 0, Modular.encode i, .replicate 64 0⟩)

def kernel : TxKernel := ⟨.plain, 0, 0, Modular.encode 0, .replicate 64 0⟩

def tx (inputs : Nat) : Transaction := ⟨.zero, ⟨(List.range inputs).map input, [], [kernel]⟩⟩

def chain (ct : ChainTypes) : BlockChain where
  verifyCoinbaseMaturity _ := .ok ()
  verifyTxLockHeight _ := .ok ()
  validateTx _ := .ok ()
  chainHead := .ok (.default ct)
  getBlockSums _ := .ok ⟨commitToZeroValue, commitToZeroValue⟩

def pool (ct : ChainTypes) (inputs : Nat) : Pool := ⟨[tx inputs], chain ct⟩

def sources (base : Env) (inputs : Nat) (maxWeight : UInt64) : Sources where
  now := .epoch
  nonce := 0
  mineable := (pool base.chainType inputs).prepareMineableTransactions (env base) maxWeight
  getCoinbase fees _ := .ok ((coinbase 1).1, (coinbase 1).2, fees)
  loadFoundationOutput _ := .ok (coinbase 2)

def head (base : Env) (height : UInt64) : BlockHeader :=
  { BlockHeader.default base.chainType with height := height - 1 }

theorem blake2b_inj {bs cs : List UInt8}
    : blake2b bs = blake2b cs ↔ Bytes.ofBE bs = Bytes.ofBE cs := by
  constructor
  . intro h
    simpa [blake2b] using congrArg (fun hash => hash.bytes.length) h
  . intro h
    rw [blake2b, h, blake2b]

theorem replicate_lt {m n : Nat} (h : m < n)
    : List.replicate m (0 : UInt8) < List.replicate n 0 := by
  induction m generalizing n with
  | zero =>
    obtain ⟨n, rfl⟩ := Nat.exists_eq_succ_of_ne_zero (Nat.ne_of_gt h)
    exact List.nil_lt_cons _ _
  | succ m ih =>
    obtain ⟨n, rfl⟩ := Nat.exists_eq_succ_of_ne_zero (Nat.ne_of_gt (Nat.zero_lt_of_lt h))
    exact List.cons_lt_cons_self.mpr (ih (Nat.lt_of_succ_lt_succ h))

variable {base : Env}

theorem hash_input {i : Nat} (h : i < 256 ^ 33)
    : (input i).hash (env base) = ⟨.replicate i 0⟩ := by
  have hval : Bytes.ofBE (input i).write = Bytes.ofBE (Bytes.beBytes 33 i) := by
    simp [input, Input.write, Bytes.ofBE, Ser.writeU8, OutputFeatures.toU8, Modular.encode]
  change blake2b (input i).write = _
  rw [blake2b, hval, Bytes.ofBE_beBytes, Nat.mod_eq_of_lt h]

theorem sorted_inputs {n : Nat} (hn : n ≤ 256 ^ 33)
    : (((List.range n).map input).map (·.hash (env base))).Pairwise (· < ·) := by
  rw [List.map_map, List.pairwise_map]
  refine List.Pairwise.imp_of_mem ?_ List.pairwise_lt_range
  intro i j hi hj hlt
  rw [List.mem_range] at hi hj
  rw [Function.comp_apply, Function.comp_apply, hash_input (hi.trans_le hn), hash_input (hj.trans_le hn)]
  exact replicate_lt hlt

theorem validate_tx {n : Nat} {maxWeight : UInt64} (hn : n ≤ 256 ^ 33)
    (hweight : n + 3 ≤ min (Global.maxBlockWeight base.chainType).toNat maxWeight.toNat - 24)
    : (tx n).validate (env base) (.asLimitedTransaction maxWeight) = .ok () := by
  have hlight : (tx n).body.verifyWeight base.chainType (.asLimitedTransaction maxWeight) = .ok () := by
    rw [TransactionBody.verifyWeight_asLimitedTransaction]
    simp only [tx, TransactionBody.bodyWeightAsBlock, List.length_map, List.length_range, List.length_nil,
      List.length_singleton, TransactionBody.weightAsBlock_eq]
    omega
  have hsorted : (tx n).body.verifySorted (env base) = .ok () :=
    TransactionBody.verifySorted_eq_ok.mpr ⟨sorted_inputs hn, .nil, List.pairwise_singleton _ _⟩
  have hcut : (tx n).body.verifyCutThrough (env base) = .ok () :=
    TransactionBody.cutThroughLoop_of_ne (fun x _ y hy => absurd hy List.not_mem_nil)
  have hread : (tx n).body.validateRead (env base) (.asLimitedTransaction maxWeight) = .ok () := by
    rw [TransactionBody.validateRead]
    change (do
      (tx n).body.verifyWeight base.chainType (.asLimitedTransaction maxWeight)
      (tx n).body.verifySorted (env base)
      (tx n).body.verifyCutThrough (env base) : Outcome TransactionError Unit) = _
    rw [hlight, Outcome.ok_bind, hsorted, Outcome.ok_bind, hcut]
  rw [Transaction.validate, TransactionBody.validate, hread]
  rfl

variable (base) in
theorem prepare_eq_ok {n : Nat} (maxWeight : UInt64) (hn : n ≤ 256 ^ 33)
    (hweight : n + 3 ≤ min (Global.maxBlockWeight base.chainType).toNat maxWeight.toNat - 24)
    : (pool base.chainType n).prepareMineableTransactions (env base) maxWeight = .ok [tx n] := by
  have hone : (tx n).txWeight = 1 := by
    simp only [Transaction.txWeight, TransactionBody.bodyWeight, TransactionBody.weight, tx, List.length_map,
      List.length_range, List.length_nil, List.length_singleton]
    omega
  have hbucket : Bucket.new base.overflowChecks (tx n) = .ok ⟨[tx n], 0⟩ := by
    have hfee : (tx n).feeToWeight base.overflowChecks = (.ok 0 : Outcome PoolError UInt64) := by
      have hzero : (tx n).fee = 0 := rfl
      rw [Transaction.feeToWeight, hone, hzero, mul_eq_ok (by decide), Outcome.ok_bind, div_eq_ok (by decide)]
      rfl
    rw [Bucket.new, hfee]
    rfl
  have hsorted : (pool base.chainType n).bucketTransactions (env base) (.asLimitedTransaction maxWeight)
      = .ok [tx n] := by
    have hfirst : Pool.bucketTransaction (env base) (.asLimitedTransaction maxWeight) ⟨[], [], []⟩ (tx n)
        = .ok ⟨[⟨[tx n], 0⟩], [], []⟩ := by
      rw [Pool.bucketTransaction, Pool.findParent_nil]
      change (do
        let own ← Bucket.new base.overflowChecks (tx n)
        return Pool.accept ⟨[], [], []⟩ (tx n) ([] ++ [own]) 0 : Outcome PoolError Pool.Buckets) = _
      rw [hbucket]
      rfl
    rw [Pool.bucketTransactions, pool, List.foldlM_cons, hfirst]
    rfl
  have hnext : (pool base.chainType n).validateNext (env base) none (.default base.chainType)
      (.asLimitedTransaction maxWeight) [] (tx n) = .ok [tx n] := by
    have hraw : (pool base.chainType n).validateRawTx (env base) (tx n) (.default base.chainType)
        (.asLimitedTransaction maxWeight) = .ok ⟨commitToZeroValue, commitToZeroValue⟩ := by
      rw [Pool.validateRawTx, validate_tx hn hweight]
      rfl
    exact Pool.validateNext_ok rfl hraw
  have hvalid : (pool base.chainType n).validateRawTxs (env base) [tx n] none (.default base.chainType)
      (.asLimitedTransaction maxWeight) = .ok [tx n] := by
    rw [Pool.validateRawTxs, List.foldlM_cons, hnext]
    rfl
  exact Outcome.bind_eq_ok.mpr ⟨_, hsorted, Outcome.bind_eq_ok.mpr ⟨_, rfl, hvalid⟩⟩

theorem hash_input_ne (i n : Nat)
    : (input i).hash (env base) ≠ (coinbase n).1.hash (env base) := by
  intro h
  have hbytes := Bytes.ofBE_injective (by simp [input, coinbase, Input.write, Output.write, Ser.writeU8])
    (blake2b_inj.mp h)
  simp [input, coinbase, Input.write, Output.write, Ser.writeU8, OutputFeatures.toU8] at hbytes

theorem hash_output_ne
    : (coinbase 1).1.hash (env base) ≠ (coinbase 2).1.hash (env base) := by
  intro h
  exact absurd (blake2b_inj.mp h) (by decide)

variable (base) in
theorem hash_kernel_ne
    : kernel.hash (env base) ≠ (coinbase 1).2.hash (env base)
        ∧ kernel.hash (env base) ≠ (coinbase 2).2.hash (env base)
        ∧ (coinbase 1).2.hash (env base) ≠ (coinbase 2).2.hash (env base) := by
  refine ⟨?_, ?_, ?_⟩ <;>
  . intro h
    exact absurd (blake2b_inj.mp h) (by decide +kernel)

def crowded (base : Env) (n : Nat) : Transaction :=
  let tx := ((tx n).withOutput (env base) (coinbase 1).1).withKernel (env base) (coinbase 1).2
  (tx.withOutput (env base) (coinbase 2).1).withKernel (env base) (coinbase 2).2

theorem perm_outputs (base : Env) (n : Nat)
    : (crowded base n).body.outputs.Perm [(coinbase 2).1, (coinbase 1).1] := by
  have heq : (crowded base n).body.outputs = insertByHash (fun o : Output => o.hash (env base)) (coinbase 2).1
      (insertByHash (fun o : Output => o.hash (env base)) (coinbase 1).1 []) := by
    simp only [crowded, tx, Transaction.withOutput, Transaction.withKernel, TransactionBody.withOutput,
      TransactionBody.withKernel]
  rw [heq]
  refine (perm_insertByHash ?_).trans ((perm_insertByHash (by simp)).cons _)
  intro o ho
  rw [(perm_insertByHash (by simp)).mem_iff, List.mem_singleton] at ho
  rw [ho]
  exact hash_output_ne

theorem perm_kernels (base : Env) (n : Nat)
    : (crowded base n).body.kernels.Perm [(coinbase 2).2, (coinbase 1).2, kernel] := by
  obtain ⟨hfirst, hsecond, hboth⟩ := hash_kernel_ne base
  have heq : (crowded base n).body.kernels = insertByHash (fun k : TxKernel => k.hash (env base)) (coinbase 2).2
      (insertByHash (fun k : TxKernel => k.hash (env base)) (coinbase 1).2 [kernel]) := by
    simp only [crowded, tx, Transaction.withOutput, Transaction.withKernel, TransactionBody.withOutput,
      TransactionBody.withKernel]
  have hone : (insertByHash (fun k : TxKernel => k.hash (env base)) (coinbase 1).2 [kernel]).Perm
      [(coinbase 1).2, kernel] := by
    apply perm_insertByHash
    intro k hk
    rw [List.mem_singleton.mp hk]
    exact hfirst
  rw [heq]
  refine (perm_insertByHash ?_).trans (hone.cons _)
  intro k hk
  rcases List.mem_pair.mp (hone.mem_iff.mp hk) with hk | hk
  . rw [hk]
    exact hboth
  . rw [hk]
    exact hsecond

theorem add_head {ε : Type} {height : UInt64}
    (h : (Consensus.isFoundationHeight base height : Outcome ServersError Bool) = .ok true)
    : (add base.overflowChecks (head base height).height 1 : Outcome ε UInt64) = .ok height := by
  have hpos : height > 0 := by
    unfold Consensus.isFoundationHeight at h
    split at h
    . next hdvd => exact hdvd.1
    . cases h
  have hone : (1 : UInt64).toNat = 1 := rfl
  have hlt := height.toNat_lt
  have hle : 1 ≤ height.toNat := UInt64.lt_iff_toNat_lt.mp hpos
  have hval : (height - 1).toNat = height.toNat - 1 := UInt64.toNat_sub_of_le _ _ (UInt64.le_iff_toNat_le.mpr hle)
  change add base.overflowChecks (height - 1) 1 = _
  rw [add_eq_ok (by rw [hval, hone]; omega), UInt64.sub_add_cancel]

theorem assemble_eq_ok {n : Nat} {height : UInt64} (maxWeight : UInt64) (hn : n < 2 ^ 60)
    (hheight : (Consensus.isFoundationHeight base height : Outcome ServersError Bool) = .ok true)
    : ∃ b, assemble (env base) (sources base n maxWeight) (head base height) [tx n] (coinbase 1) .zero height
          = .ok b
        ∧ b.body.bodyWeightAsBlock = n + 51 := by
  have hnodup : ((crowded base n).body.outputs.map (Output.hash (env base))).Nodup := by
    rw [((perm_outputs base n).map _).nodup_iff]
    simpa using hash_output_ne.symm
  obtain ⟨inputs, outputs, hcut⟩ := Transaction.exists_cutThrough (crowded base n).body.inputs hnodup
  obtain ⟨hinputs, houtputs⟩ := (Transaction.cutThrough_eq_ok hcut).length_eq (by
    intro i hi o ho
    obtain ⟨m, -, rfl⟩ := List.mem_map.mp hi
    rcases List.mem_pair.mp ((perm_outputs base n).mem_iff.mp ho) with rfl | rfl
    . exact hash_input_ne m 2
    . exact hash_input_ne m 1)
  have hinputsCrowded : (crowded base n).body.inputs.length = n := by
    simp only [crowded, tx, Transaction.withOutput, Transaction.withKernel, TransactionBody.withOutput,
      TransactionBody.withKernel, List.length_map, List.length_range]
  have hnext := add_head (ε := BlockError) hheight
  have htotal : ((.zero : Difficulty).add base.overflowChecks (head base height).pow.totalDifficulty
      : Outcome BlockError Difficulty) = .ok (.fromNum 1) := by
    change Difficulty.add base.overflowChecks .zero (.fromNum 1) = _
    generalize base.overflowChecks = checks
    cases checks <;> decide
  have hoffset : sumKernelOffsets secp [(crowded base n).offset, (head base height).totalKernelOffset] []
      = .ok .zero := by
    change sumKernelOffsets secp [.zero, .zero] [] = _
    decide
  obtain ⟨header, hblock⟩ := @Block.fromAggregate_ok (env base) _ _ .epoch _ _ _ _ _ _ hoffset hnext htotal hcut
  refine ⟨⟨header, (⟨inputs, outputs, (crowded base n).body.kernels⟩ : TransactionBody).sort (env base)⟩,
    ?_, ?_⟩
  . refine Outcome.bind_eq_ok.mpr ⟨true, hheight, ?_⟩
    rw [if_pos rfl]
    refine Outcome.bind_eq_ok.mpr ⟨coinbase 2, rfl, Outcome.mapErr_eq_ok.mpr ?_⟩
    rw [Block.fromCoinbases_singleton]
    exact hblock
  . have houtputsCrowded := (perm_outputs base n).length_eq
    have hkernels := (perm_kernels base n).length_eq
    rw [List.length_cons, List.length_singleton] at houtputsCrowded
    simp only [List.length_cons, List.length_nil] at hkernels
    simp only [TransactionBody.bodyWeightAsBlock, TransactionBody.sort, length_sortByHash,
      TransactionBody.weightAsBlock_eq, hinputs, houtputs, hinputsCrowded, houtputsCrowded, hkernels]
    omega

variable (base) in
theorem assembled {n : Nat} {height maxWeight : UInt64}
    (hheight : (Consensus.isFoundationHeight base height : Outcome ServersError Bool) = .ok true)
    (hn : n + 50 = (Global.maxBlockWeight base.chainType).toNat)
    (hmax : (Global.maxBlockWeight base.chainType).toNat < maxWeight.toNat + 24)
    : ∃ b, Assembled (env base) maxWeight height b
        ∧ b.body.verifyWeight base.chainType .asBlock = .err .tooHeavy := by
  have hbound : (Global.maxBlockWeight base.chainType).toNat ≤ 40000 := by
    cases base.chainType <;> decide
  have hprepare := prepare_eq_ok base (n := n) maxWeight (by omega) (by omega)
  obtain ⟨b, hb, hweight⟩ := assemble_eq_ok (n := n) maxWeight (by omega) hheight
  refine ⟨b, ⟨pool base.chainType n, sources base n maxWeight, head base height, [tx n], coinbase 1, .zero, rfl,
    transactions_of_ok hprepare, add_head hheight, hb⟩, Outcome.require_eq_err.mpr ⟨by omega, rfl⟩⟩

end Crowded

theorem assembled_block_weight_iff (env : Env) (maxWeight height : UInt64)
    : (∀ (secp : Secp) (blake2b : List UInt8 → Hash) (b : Block),
          Assembled { env with secp := secp, blake2b := blake2b } maxWeight height b →
          b.body.verifyWeight env.chainType .asBlock = .ok ())
        ↔
      (Consensus.isFoundationHeight env height : Outcome ServersError Bool) ≠ .ok true
        ∨ maxWeight.toNat + 24 ≤ (Global.maxBlockWeight env.chainType).toNat := by
  have hleast : 150 ≤ (Global.maxBlockWeight env.chainType).toNat := by
    cases env.chainType <;> decide
  constructor
  . intro h
    by_contra hnot
    obtain ⟨hheight, hmax⟩ := not_or.mp hnot
    obtain ⟨b, hb, hheavy⟩ := Crowded.assembled env (n := (Global.maxBlockWeight env.chainType).toNat - 50)
      (not_not.mp hheight) (by omega) (Nat.not_le.mp hmax)
    rw [h Crowded.secp Crowded.blake2b b hb] at hheavy
    contradiction
  . intro h secp blake2b b hb
    have hle := hb.weight_le
    have hfoundation : (Consensus.isFoundationHeight { env with secp := secp, blake2b := blake2b } height
        : Outcome ServersError Bool) = Consensus.isFoundationHeight env height := rfl
    rw [hfoundation] at hle
    rw [TransactionBody.verifyWeight_asBlock]
    dsimp only at hle
    split at hle
    . next hheight =>
      have hmax := h.resolve_left (not_not_intro hheight)
      omega
    . omega

-- a block at the first foundation height, with the default of the pool
theorem foundation_block_too_heavy
    : ∃ b, Assembled (Crowded.env (Transparent.env .mainnet)) Consensus.maxBlockWeight 1440 b
        ∧ b.body.verifyWeight .mainnet .asBlock = .err .tooHeavy :=
  Crowded.assembled (Transparent.env .mainnet) (n := 39950) (by decide) (by decide) (by decide)

end MineBlock
end Epic
