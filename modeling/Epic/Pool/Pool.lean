import Epic.Chain.Store
import Epic.Core.Transaction.Aggregate

/-!
This module contains a pool of transactions. A transaction is added if the aggregate of the pool with it
is valid. The transactions a miner takes from it are put into buckets with the transactions they depend
on, and then aggregated one by one as long as the aggregate is valid and light enough.
-/

namespace Epic

open MachineInt

inductive PoolError where
  | invalidTx (e : TransactionError)
  | keychain
  | committed (e : CommittedError)
  | immatureTransaction
  | immatureCoinbase
  | dandelionError
  | overCapacity
  | lowFeeTransaction (threshold : UInt64)
  | duplicateTx
  | other (msg : String)
deriving DecidableEq, Repr

def BlindingFactor.add (secp : Secp) (bf other : BlindingFactor) : Option BlindingFactor :=
  let keys := toSecrets secp [bf, other]
  if keys.isEmpty then some .zero else secp.blindSum keys []

structure BlockChain where
  verifyCoinbaseMaturity : Transaction → Outcome PoolError Unit
  verifyTxLockHeight : Transaction → Outcome PoolError Unit
  validateTx : Transaction → Outcome PoolError Unit
  chainHead : Outcome PoolError BlockHeader
  getBlockSums : Hash → Outcome PoolError BlockSums

structure Bucket where
  rawTxs : List Transaction
  feeToWeight : UInt64
deriving DecidableEq

namespace Bucket

def new (checks : Bool) (tx : Transaction) : Outcome PoolError Bucket := do
  let feeToWeight ← tx.feeToWeight checks
  return ⟨[tx], feeToWeight⟩

def aggregateWithTx (env : Env) (bucket : Bucket) (newTx : Transaction) (weighting : Weighting)
    : Outcome PoolError Bucket := do
  let rawTxs := bucket.rawTxs ++ [newTx]
  let aggTx ← (Transaction.aggregate env rawTxs).mapErr .invalidTx
  (aggTx.validate env weighting).mapErr .invalidTx
  let feeToWeight ← aggTx.feeToWeight env.overflowChecks
  return ⟨rawTxs, feeToWeight⟩

end Bucket

structure Pool where
  entries : List Transaction
  blockchain : BlockChain

namespace Pool

-- the buckets so far, the bucket that created a commitment, and the commitments of rejected transactions
structure Buckets where
  txBuckets : List Bucket
  outputCommits : List (Commitment × Nat)
  rejected : List Commitment

-- the bucket the inputs depend on, and whether the transaction is rejected
def findParent (st : Buckets) (inputs : List Input) : Option Nat × Bool :=
  inputs.foldl (fun (insertPos, isRejected) input =>
    if st.rejected.contains input.commit then
      (insertPos, true)
    else
      match st.outputCommits.lookup input.commit with
      | some pos => if insertPos.isSome then (insertPos, true) else (some pos, isRejected)
      | none => (insertPos, isRejected)) (none, false)

def reject (st : Buckets) (tx : Transaction) : Buckets :=
  { st with rejected := tx.body.outputs.map (·.commit) ++ st.rejected }

-- the source records the bucket of the parent also when the transaction gets a bucket of its own
def accept (st : Buckets) (tx : Transaction) (txBuckets : List Bucket) (insertPos : Nat) : Buckets :=
  { st with
    txBuckets := txBuckets
    outputCommits := tx.body.outputs.map (fun out => (out.commit, insertPos)) ++ st.outputCommits }

def addToBucket (env : Env) (weighting : Weighting) (st : Buckets) (tx : Transaction) (pos : Nat)
    : Outcome PoolError Buckets := do
  let bucket ← .unwrap st.txBuckets[pos]?
  match bucket.aggregateWithTx env tx weighting with
  | .ok newBucket =>
    if bucket.feeToWeight ≤ newBucket.feeToWeight then
      return accept st tx (st.txBuckets.set pos newBucket) pos
    else
      let own ← Bucket.new env.overflowChecks tx
      return accept st tx (st.txBuckets ++ [own]) pos
  | .err _ => return reject st tx
  | .panic => .panic
  | .hang => .hang

def bucketTransaction (env : Env) (weighting : Weighting) (st : Buckets) (tx : Transaction)
    : Outcome PoolError Buckets :=
  match findParent st tx.body.inputs with
  | (_, true) => .ok (reject st tx)
  | (none, false) => do
    let own ← Bucket.new env.overflowChecks tx
    return accept st tx (st.txBuckets ++ [own]) st.txBuckets.length
  | (some pos, false) => addToBucket env weighting st tx pos

def bucketTransactions (env : Env) (pool : Pool) (weighting : Weighting)
    : Outcome PoolError (List Transaction) := do
  let st ← pool.entries.foldlM (bucketTransaction env weighting) ⟨[], [], []⟩
  let sorted := st.txBuckets.insertionSort fun a b => b.feeToWeight ≤ a.feeToWeight
  return sorted.flatMap (·.rawTxs)

def applyTxToBlockSums (env : Env) (pool : Pool) (tx : Transaction) (header : BlockHeader)
    : Outcome PoolError BlockSums := do
  let overage := tx.overage
  let offset ← .okOr (BlindingFactor.add env.secp header.totalKernelOffset tx.offset) .keychain
  let blockSums ← pool.blockchain.getBlockSums (header.hash env)
  let (utxoSum, kernelSum) ←
    ((blockSums.committed tx.body.committed).verifyKernelSums env.secp overage offset).mapErr .committed
  return ⟨utxoSum, kernelSum⟩

def validateRawTx (env : Env) (pool : Pool) (tx : Transaction) (header : BlockHeader)
    (weighting : Weighting)
    : Outcome PoolError BlockSums := do
  (tx.validate env weighting).mapErr .invalidTx
  pool.blockchain.validateTx tx
  pool.applyTxToBlockSums env tx header

-- a transaction that makes the aggregate invalid is left out
def validateNext (env : Env) (pool : Pool) (extraTx : Option Transaction) (header : BlockHeader)
    (weighting : Weighting) (validTxs : List Transaction) (tx : Transaction)
    : Outcome PoolError (List Transaction) := do
  let aggTx ← (Transaction.aggregate env (extraTx.toList ++ validTxs ++ [tx])).mapErr .invalidTx
  match pool.validateRawTx env aggTx header weighting with
  | .ok _ => return validTxs ++ [tx]
  | .err _ => return validTxs
  | .panic => .panic
  | .hang => .hang

def validateRawTxs (env : Env) (pool : Pool) (txs : List Transaction) (extraTx : Option Transaction)
    (header : BlockHeader) (weighting : Weighting)
    : Outcome PoolError (List Transaction) :=
  txs.foldlM (pool.validateNext env extraTx header weighting) []

def prepareMineableTransactions (env : Env) (pool : Pool) (maxWeight : UInt64)
    : Outcome PoolError (List Transaction) := do
  let weighting := Weighting.asLimitedTransaction maxWeight
  let txs ← pool.bucketTransactions env weighting
  let header ← pool.blockchain.chainHead
  pool.validateRawTxs env txs none header weighting

def containsTx (env : Env) (pool : Pool) (hash : Hash) : Bool := pool.entries.any (·.hash env = hash)

def allTransactionsAggregate (env : Env) (pool : Pool) : Outcome PoolError (Option Transaction) :=
  if pool.entries.isEmpty then
    .ok none
  else do
    let tx ← (Transaction.aggregate env pool.entries).mapErr .invalidTx
    (tx.validate env .noLimit).mapErr .invalidTx
    return some tx

def addToPool (env : Env) (pool : Pool) (tx : Transaction) (extraTxs : List Transaction)
    (header : BlockHeader)
    : Outcome PoolError Pool := do
  .require (pool.entries.any (·.eq env tx) = false) .duplicateTx
  let txs := pool.entries ++ extraTxs
  let aggTx ←
    if txs.isEmpty then
      .ok tx
    else
      (Transaction.aggregate env (txs ++ [tx])).mapErr .invalidTx
  let _ ← pool.validateRawTx env aggTx header .noLimit
  return { pool with entries := pool.entries ++ [tx] }

-- a transaction that cannot be added again is dropped
def reconcile (env : Env) (pool : Pool) (extraTx : Option Transaction) (header : BlockHeader)
    : Outcome PoolError Pool :=
  pool.entries.foldlM
    (fun kept tx =>
      match kept.addToPool env tx extraTx.toList header with
      | .ok kept' => .ok kept'
      | .err _ => .ok kept
      | .panic => .panic
      | .hang => .hang)
    { pool with entries := [] }

def findMatchingTransactions (pool : Pool) (kernels : List TxKernel) : List Transaction :=
  pool.entries.filter fun tx => tx.body.kernels.all fun k => k ∈ kernels

def reconcileBlock (env : Env) (pool : Pool) (block : Block) : Pool :=
  { pool with
    entries := pool.entries.filter fun tx =>
      !(tx.body.kernels.any fun y => block.body.kernels.any fun k => k.hash env = y.hash env)
        && !(tx.body.inputs.any fun y => block.body.inputs.any fun i => i.hash env = y.hash env) }

section

variable {env : Env}

def Valid (env : Env) (chain : BlockChain) (header : BlockHeader) (txs : List Transaction) : Prop :=
  ∃ aggTx sums, Transaction.aggregate env txs = .ok aggTx
    ∧ validateRawTx env ⟨txs, chain⟩ aggTx header .noLimit = .ok sums

theorem addToPool_eq_ok {pool pool' : Pool} {tx : Transaction} {extraTxs : List Transaction}
    {header : BlockHeader} (h : pool.addToPool env tx extraTxs header = .ok pool')
    : pool.entries.any (·.eq env tx) = false
        ∧
      pool' = { pool with entries := pool.entries ++ [tx] }
        ∧
      Valid env pool.blockchain header (pool.entries ++ extraTxs ++ [tx]) := by
  obtain ⟨⟨⟩, hfresh, h⟩ := Outcome.bind_eq_ok.mp h
  rw [Outcome.require_eq_ok] at hfresh
  dsimp only at h
  split at h
  . next hempty =>
    simp only [Outcome.ok_bind, Outcome.bind_eq_ok, Outcome.pure_eq_ok, Outcome.ok.injEq] at h
    obtain ⟨sums, hsums, rfl⟩ := h
    refine ⟨hfresh, rfl, tx, sums, ?_, hsums⟩
    rw [List.isEmpty_iff.mp hempty]
    rfl
  . simp only [Outcome.bind_eq_ok, Outcome.mapErr_eq_ok, Outcome.pure_eq_ok, Outcome.ok.injEq] at h
    obtain ⟨aggTx, hagg, sums, hsums, rfl⟩ := h
    exact ⟨hfresh, rfl, aggTx, sums, hagg, hsums⟩

theorem Valid.allTransactionsAggregate {pool : Pool}
    (h : Valid env pool.blockchain header pool.entries)
    : ∃ aggTx, pool.allTransactionsAggregate env = .ok aggTx := by
  obtain ⟨aggTx, sums, hagg, hvalid⟩ := h
  unfold validateRawTx at hvalid
  simp only [Outcome.bind_eq_ok, Outcome.mapErr_eq_ok] at hvalid
  obtain ⟨⟨⟩, hvalid, -⟩ := hvalid
  unfold Pool.allTransactionsAggregate
  split
  . exact ⟨none, rfl⟩
  . refine ⟨some aggTx, ?_⟩
    simp [hagg, hvalid, Outcome.mapErr]

theorem reconcile_eq_ok {pool pool' : Pool}
    (h : pool.reconcile env extraTx header = .ok pool')
    : pool'.blockchain = pool.blockchain
        ∧
      pool'.entries.Sublist pool.entries
        ∧
      (extraTx = none → ∀ l, l <+: pool'.entries → l ≠ [] → Valid env pool.blockchain header l) := by
  apply Outcome.foldlM_eq_ok (fun done (kept : Pool) => kept.blockchain = pool.blockchain
    ∧ kept.entries.Sublist done
    ∧ (extraTx = none → ∀ l, l <+: kept.entries → l ≠ [] → Valid env pool.blockchain header l)) ?_ ?_ h
  . exact ⟨rfl, .slnil, fun _ l hl hne => absurd (List.prefix_nil.mp hl) hne⟩
  . rintro done tx kept kept' - ⟨hchain, hsub, hvalid⟩ hstep
    split at hstep
    . next hadd =>
      injection hstep with hstep
      subst hstep
      obtain ⟨-, rfl, hnew⟩ := addToPool_eq_ok hadd
      refine ⟨hchain, hsub.append (.refl [tx]), ?_⟩
      rintro rfl l hl hne
      rcases List.prefix_concat_iff.mp hl with rfl | hl
      . rw [← hchain]
        simpa using hnew
      . exact hvalid rfl l hl hne
    . injection hstep with hstep
      subst hstep
      exact ⟨hchain, hsub.trans (List.sublist_append_left _ _), hvalid⟩
    . contradiction
    . contradiction

theorem reconcile_ne_err (pool : Pool) (extraTx : Option Transaction) (header : BlockHeader) (e : PoolError)
    : pool.reconcile env extraTx header ≠ .err e := by
  apply Outcome.foldlM_ne_err
  intro kept tx
  split <;> simp

end

/-!
The buckets hold transactions of the pool, and the first transaction always gets one.
-/

section

variable {env : Env} {weighting : Weighting}

structure Buckets.Holds (st : Buckets) (done : List Transaction) : Prop where
  mem : ∀ b ∈ st.txBuckets, ∀ tx ∈ b.rawTxs, tx ∈ done
  nonempty : ∀ b ∈ st.txBuckets, b.rawTxs ≠ []
  first : done ≠ [] → st.txBuckets ≠ []
  start : done = [] → st = ⟨[], [], []⟩

namespace Buckets.Holds

variable {st : Buckets} {done : List Transaction} {tx : Transaction}

theorem reject (h : st.Holds done) (hdone : done ≠ [])
    : (Pool.reject st tx).Holds (done ++ [tx]) where
  mem b hb tx' htx' := List.mem_append_left _ (h.mem b hb tx' htx')
  nonempty := h.nonempty
  first _ := h.first hdone
  start hnil := by simp at hnil

theorem accept (h : st.Holds done) (own : Bucket) {txBuckets : List Bucket} {insertPos : Nat}
    (hown : ∀ tx' ∈ own.rawTxs, tx' ∈ done ++ [tx]) (hnonempty : own.rawTxs ≠ [])
    (hmem : ∀ b ∈ txBuckets, b ∈ st.txBuckets ∨ b = own) (hne : txBuckets ≠ [])
    : (Pool.accept st tx txBuckets insertPos).Holds (done ++ [tx]) where
  mem b hb tx' htx' := by
    rcases hmem b hb with hb | rfl
    . exact List.mem_append_left _ (h.mem b hb tx' htx')
    . exact hown tx' htx'
  nonempty b hb := by
    rcases hmem b hb with hb | rfl
    . exact h.nonempty b hb
    . exact hnonempty
  first _ := hne
  start hnil := by simp at hnil

theorem push (h : st.Holds done)
    (hown : Bucket.new env.overflowChecks tx = .ok own)
    : (Pool.accept st tx (st.txBuckets ++ [own]) insertPos).Holds (done ++ [tx]) := by
  unfold Bucket.new at hown
  simp only [Outcome.bind_eq_ok, Outcome.pure_eq_ok, Outcome.ok.injEq] at hown
  obtain ⟨feeToWeight, -, rfl⟩ := hown
  apply h.accept ⟨[tx], feeToWeight⟩
  . intro tx' htx'
    exact List.mem_append_right _ htx'
  . simp
  . intro b hb
    simpa using hb
  . simp

theorem addToBucket (h : st.Holds done)
    (hadd : Pool.addToBucket env weighting st tx pos = .ok st')
    : st'.Holds (done ++ [tx]) := by
  obtain ⟨bucket, hbucket, hadd⟩ := Outcome.bind_eq_ok.mp hadd
  rw [Outcome.unwrap_eq_ok] at hbucket
  have hmem := List.mem_of_getElem? hbucket
  have hne : st.txBuckets ≠ [] := List.ne_nil_of_mem hmem
  have hdone : done ≠ [] := by
    obtain ⟨tx', htx'⟩ := List.exists_mem_of_ne_nil _ (h.nonempty bucket hmem)
    exact List.ne_nil_of_mem (h.mem bucket hmem tx' htx')
  split at hadd
  . next newBucket hnew =>
    split at hadd
    . rw [Outcome.pure_eq_ok, Outcome.ok.injEq] at hadd
      have hraw : newBucket.rawTxs = bucket.rawTxs ++ [tx] := by
        unfold Bucket.aggregateWithTx at hnew
        simp only [Outcome.bind_eq_ok, Outcome.pure_eq_ok, Outcome.ok.injEq] at hnew
        obtain ⟨_, _, _, _, _, _, rfl⟩ := hnew
        rfl
      rw [← hadd]
      apply h.accept newBucket
      . intro tx' htx'
        rw [hraw, List.mem_append] at htx'
        rcases htx' with htx' | htx'
        . exact List.mem_append_left _ (h.mem bucket hmem tx' htx')
        . exact List.mem_append_right _ htx'
      . rw [hraw]
        simp
      . intro b hb
        exact List.mem_or_eq_of_mem_set hb
      . simpa using hne
    . obtain ⟨own, hown, hadd⟩ := Outcome.bind_eq_ok.mp hadd
      rw [Outcome.pure_eq_ok, Outcome.ok.injEq] at hadd
      rw [← hadd]
      exact h.push hown
  . rw [Outcome.pure_eq_ok, Outcome.ok.injEq] at hadd
    rw [← hadd]
    exact h.reject hdone
  . contradiction
  . contradiction

end Buckets.Holds

theorem findParent_nil (inputs : List Input)
    : findParent ⟨[], [], []⟩ inputs = (none, false) := by
  unfold findParent
  induction inputs with
  | nil => rfl
  | cons i inputs ih =>
    rw [List.foldl_cons]
    exact ih

theorem Buckets.Holds.bucketTransaction
    (h : st.Holds done) (hstep : Pool.bucketTransaction env weighting st tx = .ok st')
    : st'.Holds (done ++ [tx]) := by
  unfold Pool.bucketTransaction at hstep
  split at hstep
  . next insertPos hparent =>
    rw [Outcome.ok.injEq] at hstep
    rw [← hstep]
    apply h.reject
    intro hdone
    rw [h.start hdone, findParent_nil] at hparent
    simp at hparent
  . obtain ⟨own, hown, hstep⟩ := Outcome.bind_eq_ok.mp hstep
    rw [Outcome.pure_eq_ok, Outcome.ok.injEq] at hstep
    rw [← hstep]
    exact h.push hown
  . exact h.addToBucket hstep

theorem bucketTransactions_eq_ok {pool : Pool}
    (h : pool.bucketTransactions env weighting = .ok txs)
    : (∀ tx ∈ txs, tx ∈ pool.entries) ∧ (pool.entries ≠ [] → txs ≠ []) := by
  obtain ⟨st, hst, h⟩ := Outcome.bind_eq_ok.mp h
  rw [Outcome.pure_eq_ok, Outcome.ok.injEq] at h
  have hholds : st.Holds pool.entries := by
    apply Outcome.foldlM_eq_ok (fun done (st : Buckets) => st.Holds done) ?_ ?_ hst
    . exact ⟨by simp, by simp, by simp, fun _ => rfl⟩
    . intro done tx st st' _ hholds hstep
      exact hholds.bucketTransaction hstep
  subst h
  constructor
  . intro tx htx
    obtain ⟨b, hb, htx⟩ := List.mem_flatMap.mp htx
    rw [List.mem_insertionSort] at hb
    exact hholds.mem b hb tx htx
  . intro hne hnil
    obtain ⟨b, hb⟩ := List.exists_mem_of_ne_nil _ (hholds.first hne)
    rw [List.flatMap_eq_nil_iff] at hnil
    exact hholds.nonempty b hb (hnil b ((List.mem_insertionSort _).mpr hb))

theorem feeToWeight_ne_err (checks : Bool) (tx : Transaction) (e : PoolError)
    : tx.feeToWeight checks ≠ .err e := by
  simp [Transaction.feeToWeight, Outcome.bind_eq_err]

theorem bucketTransactions_ne_err (pool : Pool) (e : PoolError)
    : pool.bucketTransactions env weighting ≠ .err e := by
  have hnew (tx : Transaction) : Bucket.new env.overflowChecks tx ≠ .err e := by
    simp [Bucket.new, Outcome.bind_eq_err, feeToWeight_ne_err]
  have hadd (st : Buckets) (tx : Transaction) (pos : Nat)
      : Pool.addToBucket env weighting st tx pos ≠ .err e := by
    intro herr
    rcases Outcome.bind_eq_err.mp herr with hbucket | ⟨bucket, -, herr⟩
    . cases hget : st.txBuckets[pos]? <;> simp [hget, Outcome.unwrap] at hbucket
    split at herr
    . split at herr
      . simp at herr
      . simp [Outcome.bind_eq_err, hnew] at herr
    . simp at herr
    . contradiction
    . contradiction
  have hstep (st : Buckets) (tx : Transaction)
      : Pool.bucketTransaction env weighting st tx ≠ .err e := by
    unfold Pool.bucketTransaction
    split <;> simp [Outcome.bind_eq_err, hnew, hadd]
  simp [Pool.bucketTransactions, Outcome.bind_eq_err, Outcome.foldlM_ne_err hstep]

end

end Pool
end Epic
