import Epic.Core.Genesis
import Epic.Core.Transparent
import Epic.Pool.Pool

/-!
This module contains the transaction pool of a node: the pool of public transactions, the pool of those
that are still stemmed, and a cache of transactions that are added again after a reorganisation. The
functions take the state of the chain at the time of the call.
-/

namespace Epic

open Routine

structure PoolConfig where
  acceptFeeBase : UInt64
  maxPoolSize : Nat
  maxStempoolSize : Nat

structure TransactionPool where
  config : PoolConfig
  txpool : List Transaction
  stempool : List Transaction
  reorgCache : List Transaction

namespace TransactionPool

section

variable (env : Env) (chain : BlockChain)

def new (config : PoolConfig) : TransactionPool := ⟨config, [], [], []⟩

def totalSize (tp : TransactionPool) : Nat := tp.txpool.length

def setTxpool (pool : Pool) : Routine TransactionPool PoolError Unit :=
  .modify fun tp => { tp with txpool := pool.entries }

def setStempool (pool : Pool) : Routine TransactionPool PoolError Unit :=
  .modify fun tp => { tp with stempool := pool.entries }

def addToStempool (tx : Transaction) (header : BlockHeader) : Routine TransactionPool PoolError Unit := do
  let stempool ← .query fun tp => Pool.addToPool env ⟨tp.stempool, chain⟩ tx tp.txpool header
  setStempool stempool

def addToReorgCache (tx : Transaction) : Routine TransactionPool PoolError Unit :=
  .modify fun tp =>
    let cache := tp.reorgCache ++ [tx]
    { tp with reorgCache := if cache.length > tp.config.maxPoolSize then cache.drop 1 else cache }

-- what is left of a transaction without those of the pool it was aggregated from
def deaggregateEntry (tx : Transaction) (txpool : List Transaction) : Outcome PoolError Transaction :=
  if tx.body.kernels.length > 1 then
    let txs := Pool.findMatchingTransactions ⟨txpool, chain⟩ tx.body.kernels
    if txs.isEmpty then
      .ok tx
    else do
      let tx ← (Transaction.deaggregate env tx txs).mapErr .invalidTx
      (tx.validate env .asTransaction).mapErr .invalidTx
      return tx
  else
    .ok tx

def reconcileStempool (header : BlockHeader) : Routine TransactionPool PoolError Unit := do
  let txpoolTx ← .query fun tp => Pool.allTransactionsAggregate env ⟨tp.txpool, chain⟩
  let stempool ← .query fun tp => Pool.reconcile env ⟨tp.stempool, chain⟩ txpoolTx header
  setStempool stempool

def addToTxpool (tx : Transaction) (header : BlockHeader) : Routine TransactionPool PoolError Unit := do
  let tx ← .query fun tp => deaggregateEntry env chain tx tp.txpool
  let txpool ← .query fun tp => Pool.addToPool env ⟨tp.txpool, chain⟩ tx [] header
  setTxpool txpool
  reconcileStempool env chain header

def isAcceptable (tx : Transaction) (stem : Bool) (tp : TransactionPool) : Outcome PoolError Unit :=
  if tp.totalSize > tp.config.maxPoolSize then
    .err .overCapacity
  else if stem = true ∧ tp.stempool.length > tp.config.maxStempoolSize then
    .err .overCapacity
  else if tp.totalSize > tp.config.maxPoolSize then
    .err .overCapacity
  else if tp.config.acceptFeeBase > 0 then do
    let threshold ← MachineInt.mul env.overflowChecks (UInt64.ofNat tx.txWeight) tp.config.acceptFeeBase
    .require (¬ tx.fee < threshold) (.lowFeeTransaction threshold)
  else
    .ok ()

-- whether the transaction is accepted at the cost of another one
def evictFor (tx : Transaction) (stem : Bool) (tp : TransactionPool) : Outcome PoolError Bool :=
  match isAcceptable env tx stem tp with
  | .ok () => .ok false
  | .err e => if stem = false ∧ e = .overCapacity then .ok true else .err e
  | .panic => .panic
  | .hang => .hang

def evictFromTxpool : Routine TransactionPool PoolError Unit := do
  let bucketTransactions ← .query fun tp => Pool.bucketTransactions env ⟨tp.txpool, chain⟩ .noLimit
  match bucketTransactions.getLast? with
  | some evictable =>
    .modify fun tp => { tp with txpool := tp.txpool.filter fun x => !(x.eq env evictable) }
  | none => pure ()

-- whether the transaction is fluffed, any problem with stemming falls back to it
def fluffs (stemTxAccepted : Transaction → Outcome PoolError Unit) (tx : Transaction) (stem : Bool)
    (header : BlockHeader)
    : Routine TransactionPool PoolError Bool :=
  if stem then
    isErr (do
      addToStempool env chain tx header
      .lift (stemTxAccepted tx))
  else
    pure true

-- add_to_pool after the checks of the pool itself
def addChecked (stemTxAccepted : Transaction → Outcome PoolError Unit) (tx : Transaction)
    (stem evict : Bool) (header : BlockHeader)
    : Routine TransactionPool PoolError Unit := do
  .lift ((tx.validate env .asTransaction).mapErr .invalidTx)
  .lift (chain.verifyTxLockHeight tx)
  .lift (chain.verifyCoinbaseMaturity tx)
  let fluff ← fluffs env chain stemTxAccepted tx stem header
  .onlyIf fluff (do
    addToTxpool env chain tx header
    addToReorgCache tx)
  .onlyIf evict (evictFromTxpool env chain)

def addToPool (stemTxAccepted : Transaction → Outcome PoolError Unit) (tx : Transaction) (stem : Bool)
    (header : BlockHeader)
    : Routine TransactionPool PoolError Unit := do
  .query fun tp =>
    .require (¬ (stem = false ∧ Pool.containsTx env ⟨tp.txpool, chain⟩ (tx.hash env) = true)) .duplicateTx
  let evict ← .query (evictFor env tx stem)
  addChecked env chain stemTxAccepted tx stem evict header

-- the errors are dropped
def reconcileReorgCache (header : BlockHeader) : Routine TransactionPool PoolError Unit := do
  let entries ← .gets (·.reorgCache)
  .forEach entries fun tx => do
    let _ ← isErr (addToTxpool env chain tx header)

def reconcileBlock (block : Block) : Routine TransactionPool PoolError Unit := do
  let txpool ← .query fun tp =>
    Pool.reconcile env (Pool.reconcileBlock env ⟨tp.txpool, chain⟩ block) none block.header
  setTxpool txpool
  .modify fun tp => { tp with stempool := (Pool.reconcileBlock env ⟨tp.stempool, chain⟩ block).entries }
  reconcileStempool env chain block.header

end

section

variable {env : Env} {chain : BlockChain} {tx : Transaction} {header : BlockHeader}
  {tp tp' : TransactionPool} {o : Outcome PoolError Unit}

variable (env chain header tp) in
theorem reconcileStempool_state
    : (reconcileStempool env chain header tp).2.config = tp.config
        ∧ (reconcileStempool env chain header tp).2.txpool = tp.txpool
        ∧ (reconcileStempool env chain header tp).2.reorgCache = tp.reorgCache := by
  let P (s : TransactionPool) : Prop :=
    s.config = tp.config ∧ s.txpool = tp.txpool ∧ s.reorgCache = tp.reorgCache
  suffices hpreserves : Preserves P (reconcileStempool env chain header) from hpreserves tp ⟨rfl, rfl, rfl⟩
  refine Preserves.bind (.query _) fun txpoolTx => ?_
  refine Preserves.bind (.query _) fun stempool => ?_
  exact .modify fun s hs => hs

theorem reconcileStempool_ne_err (h : Pool.Valid env chain header tp.txpool)
    : (reconcileStempool env chain header tp).1 ≠ .err e := by
  obtain ⟨aggTx, hagg⟩ : ∃ aggTx, Pool.allTransactionsAggregate env ⟨tp.txpool, chain⟩ = .ok aggTx :=
    Pool.Valid.allTransactionsAggregate h
  intro herr
  have herr : reconcileStempool env chain header tp
      = (.err e, (reconcileStempool env chain header tp).2) := Prod.ext herr rfl
  rcases bind_eq_err.mp herr with hquery | ⟨_, _, hquery, herr⟩
  . simp [hagg] at hquery
  rcases bind_eq_err.mp herr with hquery | ⟨_, _, _, herr⟩
  . rw [query_apply, Prod.mk.injEq] at hquery
    exact Pool.reconcile_ne_err _ _ _ _ hquery.1
  . simp [setStempool] at herr

inductive Entered (env : Env) (chain : BlockChain) (header : BlockHeader) (txpool : List Transaction)
    (tx : Transaction)
    : Outcome PoolError Unit → List Transaction → Prop
  | refused (e : PoolError) : Entered env chain header txpool tx (.err e) txpool
  | added (tx' : Transaction) (hdeagg : deaggregateEntry env chain tx txpool = .ok tx')
      (hfresh : txpool.any (·.eq env tx') = false) (hvalid : Pool.Valid env chain header (txpool ++ [tx']))
      : Entered env chain header txpool tx (.ok ()) (txpool ++ [tx'])

theorem Entered.eq_append {txpool entries : List Transaction}
    (h : Entered env chain header txpool tx (.ok ()) entries)
    : ∃ tx', deaggregateEntry env chain tx txpool = .ok tx' ∧ txpool.any (·.eq env tx') = false
        ∧ Pool.Valid env chain header (txpool ++ [tx']) ∧ entries = txpool ++ [tx'] := by
  cases h with
  | added tx' hdeagg hfresh hvalid => exact ⟨tx', hdeagg, hfresh, hvalid, rfl⟩

theorem Entered.eq_of_err {txpool entries : List Transaction} {e : PoolError}
    (h : Entered env chain header txpool tx (.err e) entries)
    : entries = txpool := by
  cases h with
  | refused => rfl

theorem addToTxpool_cases (h : addToTxpool env chain tx header tp = (o, tp')) (hreturns : o.Returns)
    : tp'.config = tp.config ∧ tp'.reorgCache = tp.reorgCache
        ∧ Entered env chain header tp.txpool tx o tp'.txpool := by
  rcases query_bind_cases h hreturns with ⟨e, -, rfl, rfl⟩ | ⟨tx', hdeagg, h⟩
  . exact ⟨rfl, rfl, .refused e⟩
  rcases query_bind_cases h hreturns with ⟨e, -, rfl, rfl⟩ | ⟨txpool, hadd, h⟩
  . exact ⟨rfl, rfl, .refused e⟩
  obtain ⟨hfresh, rfl, hvalid⟩ := Pool.addToPool_eq_ok hadd
  rw [List.append_nil] at hvalid
  -- the rest works on the stempool, and the aggregate it needs was just validated
  have hrest : reconcileStempool env chain header { tp with txpool := tp.txpool ++ [tx'] } = (o, tp') := h
  obtain ⟨hconfig, htxpool, hcache⟩ := reconcileStempool_state env chain header
    { tp with txpool := tp.txpool ++ [tx'] }
  rw [hrest] at hconfig htxpool hcache
  refine ⟨hconfig, hcache, ?_⟩
  obtain rfl : o = .ok () := by
    cases o with
    | ok u => rfl
    | err e =>
      have hne : (reconcileStempool env chain header { tp with txpool := tp.txpool ++ [tx'] }).1
          ≠ .err e := reconcileStempool_ne_err hvalid
      rw [hrest] at hne
      contradiction
    | panic => exact hreturns.elim
    | hang => exact hreturns.elim
  rw [htxpool]
  exact .added tx' hdeagg hfresh hvalid

-- the last of the bucketed transactions is removed
structure Evicted (env : Env) (chain : BlockChain) (txpool txpool' : List Transaction) : Prop where
  exists_last : ∃ txs evictable, Pool.bucketTransactions env ⟨txpool, chain⟩ .noLimit = .ok txs
    ∧ txs.getLast? = some evictable
    ∧ txpool' = txpool.filter fun x => !(x.eq env evictable)

theorem Evicted.length_lt {txpool txpool' : List Transaction} (h : Evicted env chain txpool txpool')
    : txpool'.length < txpool.length := by
  obtain ⟨txs, evictable, hbuckets, hlast, rfl⟩ := h.exists_last
  apply List.length_filter_lt_length_iff_exists.mpr
  refine ⟨evictable, (Pool.bucketTransactions_eq_ok hbuckets).1 _ (List.mem_of_getLast? hlast), ?_⟩
  simp [Transaction.eq]

theorem evictFromTxpool_cases (h : evictFromTxpool env chain tp = (o, tp')) (hreturns : o.Returns)
    (htxpool : tp.txpool ≠ [])
    : tp'.config = tp.config ∧ tp'.reorgCache = tp.reorgCache
        ∧ Evicted env chain tp.txpool tp'.txpool := by
  rcases query_bind_cases h hreturns with ⟨e, herr, -, -⟩ | ⟨txs, hbuckets, h⟩
  . exact absurd herr (Pool.bucketTransactions_ne_err _ e)
  cases hlast : txs.getLast? with
  | none =>
    exact absurd (List.getLast?_eq_none_iff.mp hlast) ((Pool.bucketTransactions_eq_ok hbuckets).2 htxpool)
  | some evictable =>
    rw [hlast] at h
    obtain rfl : { tp with txpool := tp.txpool.filter fun x => !(x.eq env evictable) } = tp' :=
      congrArg Prod.snd h
    exact ⟨rfl, rfl, txs, evictable, hbuckets, hlast, rfl⟩

theorem isAcceptable_ne_overCapacity (hcapacity : ¬ tp.config.maxPoolSize < tp.txpool.length)
    : isAcceptable env tx false tp ≠ .err .overCapacity := by
  have hsize : ¬ tp.totalSize > tp.config.maxPoolSize := hcapacity
  unfold isAcceptable
  rw [if_neg hsize, if_neg (by simp), if_neg hsize]
  split
  . simp [Outcome.bind_eq_err, Outcome.require_eq_err]
  . simp

theorem evictFor_eq_ok (h : evictFor env tx stem tp = .ok evict)
    : (evict = false ∧ tp.txpool.length ≤ tp.config.maxPoolSize)
        ∨ (evict = true ∧ stem = false ∧ tp.config.maxPoolSize < tp.txpool.length) := by
  by_cases hcapacity : tp.config.maxPoolSize < tp.txpool.length
  . have hover : isAcceptable env tx stem tp = .err .overCapacity := if_pos hcapacity
    rw [evictFor, hover] at h
    dsimp only at h
    split at h
    . next hstem => exact .inr ⟨(Outcome.ok.inj h).symm, hstem.1, hcapacity⟩
    . contradiction
  . refine .inl ⟨?_, Nat.le_of_not_lt hcapacity⟩
    unfold evictFor at h
    split at h
    . exact (Outcome.ok.inj h).symm
    . next e herr =>
      split at h
      . next hover =>
        rw [hover.1, hover.2] at herr
        exact absurd herr (isAcceptable_ne_overCapacity hcapacity)
      . contradiction
    . contradiction
    . contradiction

theorem mem_addToReorgCache (h : tx' ∈ (addToReorgCache tx tp).2.reorgCache)
    : tx' ∈ tp.reorgCache ∨ tx' = tx := by
  have hmem : tx' ∈ tp.reorgCache ++ [tx] := by
    unfold addToReorgCache at h
    rw [modify_apply] at h
    dsimp only at h
    split at h
    . exact List.mem_of_mem_drop h
    . exact h
  simpa using hmem

variable (env chain tx header tp) in
theorem fluffs_state (stemTxAccepted : Transaction → Outcome PoolError Unit) (stem : Bool)
    : (fluffs env chain stemTxAccepted tx stem header tp).2.config = tp.config
        ∧ (fluffs env chain stemTxAccepted tx stem header tp).2.txpool = tp.txpool
        ∧ (fluffs env chain stemTxAccepted tx stem header tp).2.reorgCache = tp.reorgCache := by
  let P (s : TransactionPool) : Prop :=
    s.config = tp.config ∧ s.txpool = tp.txpool ∧ s.reorgCache = tp.reorgCache
  suffices hpreserves : Preserves P (fluffs env chain stemTxAccepted tx stem header) from
    hpreserves tp ⟨rfl, rfl, rfl⟩
  unfold fluffs
  split
  . refine Preserves.isErr (.bind (.bind (.query _) fun stempool => ?_) fun _ => .lift _)
    exact .modify fun s hs => hs
  . exact .pure _

inductive AddedToPool (env : Env) (chain : BlockChain) (header : BlockHeader) (tx : Transaction) (stem : Bool)
    (tp tp' : TransactionPool) : Prop
  | unchanged (htxpool : tp'.txpool = tp.txpool) (hcache : tp'.reorgCache = tp.reorgCache)
  | added (htx : tx.validate env .asTransaction = .ok ()) (hcapacity : tp.txpool.length ≤ tp.config.maxPoolSize)
      (hentered : Entered env chain header tp.txpool tx (.ok ()) tp'.txpool)
  | evicted (txpool : List Transaction) (htx : tx.validate env .asTransaction = .ok ()) (hstem : stem = false)
      (hcapacity : tp.config.maxPoolSize < tp.txpool.length)
      (hentered : Entered env chain header tp.txpool tx (.ok ()) txpool)
      (hevicted : Evicted env chain txpool tp'.txpool)

theorem addToPool_cases
    (h : addToPool env chain stemTxAccepted tx stem header tp = (o, tp')) (hreturns : o.Returns)
    : tp'.config = tp.config
        ∧ (∀ tx' ∈ tp'.reorgCache, tx' ∈ tp.reorgCache ∨ tx' = tx ∧ tx.validate env .asTransaction = .ok ())
        ∧ AddedToPool env chain header tx stem tp tp' := by
  rcases query_bind_cases h hreturns with ⟨e, -, rfl, rfl⟩ | ⟨⟨⟩, -, h⟩
  . exact ⟨rfl, fun _ => .inl, .unchanged rfl rfl⟩
  rcases query_bind_cases h hreturns with ⟨e, -, rfl, rfl⟩ | ⟨evict, hevict, h⟩
  . exact ⟨rfl, fun _ => .inl, .unchanged rfl rfl⟩
  rcases lift_bind_cases h hreturns with ⟨e, -, rfl, rfl⟩ | ⟨⟨⟩, htx, h⟩
  . exact ⟨rfl, fun _ => .inl, .unchanged rfl rfl⟩
  rcases lift_bind_cases h hreturns with ⟨e, -, rfl, rfl⟩ | ⟨⟨⟩, -, h⟩
  . exact ⟨rfl, fun _ => .inl, .unchanged rfl rfl⟩
  rcases lift_bind_cases h hreturns with ⟨e, -, rfl, rfl⟩ | ⟨⟨⟩, -, h⟩
  . exact ⟨rfl, fun _ => .inl, .unchanged rfl rfl⟩
  rw [Outcome.mapErr_eq_ok] at htx
  have hstate := fluffs_state env chain tx header tp stemTxAccepted stem
  rcases bind_cases h hreturns with ⟨e, hfluff, rfl⟩ | ⟨fluff, r, hfluff, hrest⟩ <;>
    rw [hfluff] at hstate <;> obtain ⟨hconfig, htxpool, hcache⟩ := hstate
  . exact ⟨hconfig, fun _ ht => .inl (hcache ▸ ht), .unchanged htxpool hcache⟩
  cases fluff with
  | false =>
    -- only a stemmed transaction is not fluffed, and nothing is evicted for it
    have hstem : stem = true := by
      by_contra hstem
      rw [fluffs, if_neg hstem, pure_apply, Prod.mk.injEq, Outcome.ok.injEq] at hfluff
      exact Bool.noConfusion hfluff.1
    rcases evictFor_eq_ok hevict with ⟨rfl, -⟩ | ⟨-, hfluffed, -⟩
    . obtain rfl : r = tp' := congrArg Prod.snd hrest
      exact ⟨hconfig, fun _ ht => .inl (hcache ▸ ht), .unchanged htxpool hcache⟩
    . exact Bool.noConfusion (hstem.symm.trans hfluffed)
  | true =>
    rcases bind_cases hrest hreturns with ⟨e, hadd, rfl⟩ | ⟨⟨⟩, u, hadd, hevicts⟩
    . rcases bind_eq_err.mp hadd with hadd | ⟨⟨⟩, u, -, hcached⟩
      . obtain ⟨hconfig', hcache', hentered⟩ := addToTxpool_cases hadd trivial
        refine ⟨hconfig'.trans hconfig, ?_,
          .unchanged (hentered.eq_of_err.trans htxpool) (hcache'.trans hcache)⟩
        intro tx' htx'
        rw [hcache', hcache] at htx'
        exact .inl htx'
      . simp [addToReorgCache] at hcached
    obtain ⟨⟨⟩, v, hadd, hcached⟩ := bind_eq_ok.mp hadd
    obtain ⟨hconfig', hcache', hentered⟩ := addToTxpool_cases hadd trivial
    rw [htxpool] at hentered
    obtain rfl : (addToReorgCache tx v).2 = u := congrArg Prod.snd hcached
    have hmem : ∀ tx' ∈ (addToReorgCache tx v).2.reorgCache,
        tx' ∈ tp.reorgCache ∨ tx' = tx ∧ tx.validate env .asTransaction = .ok () := by
      intro tx' htx'
      rcases mem_addToReorgCache htx' with hmem | heq
      . rw [hcache', hcache] at hmem
        exact .inl hmem
      . exact .inr ⟨heq, htx⟩
    rcases evictFor_eq_ok hevict with ⟨rfl, hcapacity⟩ | ⟨rfl, hstem, hcapacity⟩
    . obtain rfl : (addToReorgCache tx v).2 = tp' := congrArg Prod.snd hevicts
      exact ⟨hconfig'.trans hconfig, hmem, .added htx hcapacity hentered⟩
    . have hne : (addToReorgCache tx v).2.txpool ≠ [] := by
        obtain ⟨tx', -, -, -, heq⟩ := hentered.eq_append
        change v.txpool ≠ []
        rw [heq]
        simp
      obtain ⟨hconfig'', hcache'', hevicted⟩ := evictFromTxpool_cases hevicts hreturns hne
      refine ⟨hconfig''.trans (hconfig'.trans hconfig), ?_,
        .evicted v.txpool htx hstem hcapacity hentered hevicted⟩
      rw [hcache'']
      exact hmem

theorem reconcileBlock_cases (h : reconcileBlock env chain block tp = (o, tp'))
    (hreturns : o.Returns)
    : tp'.config = tp.config ∧ tp'.reorgCache = tp.reorgCache ∧ tp'.txpool.Sublist tp.txpool
        ∧ (∀ l, l <+: tp'.txpool → l ≠ [] → Pool.Valid env chain block.header l) := by
  rcases query_bind_cases h hreturns with ⟨e, herr, -, -⟩ | ⟨txpool, hreconcile, h⟩
  . exact absurd herr (Pool.reconcile_ne_err _ _ _ e)
  obtain ⟨-, hsublist, hvalid⟩ := Pool.reconcile_eq_ok hreconcile
  have hrest : reconcileStempool env chain block.header { tp with
      txpool := txpool.entries
      stempool := (Pool.reconcileBlock env ⟨tp.stempool, chain⟩ block).entries } = (o, tp') := h
  obtain ⟨hconfig, htxpool, hcache⟩ := reconcileStempool_state env chain block.header
    { tp with
      txpool := txpool.entries
      stempool := (Pool.reconcileBlock env ⟨tp.stempool, chain⟩ block).entries }
  rw [hrest] at hconfig htxpool hcache
  refine ⟨hconfig, hcache, ?_, ?_⟩
  . rw [htxpool]
    exact hsublist.trans List.filter_sublist
  . rw [htxpool]
    exact hvalid rfl

theorem reconcileReorgCache_cases (R : List Transaction → TransactionPool → Prop) (hstart : R [] tp)
    (hstep : ∀ done tx s o t, tx ∈ tp.reorgCache → R done s →
      addToTxpool env chain tx header s = (o, t) → o.Returns → R (done ++ [tx]) t)
    (h : reconcileReorgCache env chain header tp = (o, tp')) (hreturns : o.Returns)
    : R tp.reorgCache tp' := by
  have hne (e : PoolError) : Avoids e (σ := TransactionPool) (.forEach tp.reorgCache fun tx => do
      let _ ← isErr (addToTxpool env chain tx header)) := by
    apply Avoids.forEach
    intro tx
    refine .bind ?_ fun _ => .pure _
    exact Avoids.isErr
  rcases query_bind_cases h hreturns with ⟨e, herr, -, -⟩ | ⟨entries, hentries, h⟩
  . simp at herr
  obtain rfl : tp.reorgCache = entries := Outcome.ok.inj hentries
  cases o with
  | ok u =>
    apply forEach_eq_ok R hstart ?_ h
    intro done tx s t hmem hR hadd
    obtain ⟨b, t', htried, hpure⟩ := bind_eq_ok.mp hadd
    obtain rfl : t' = t := congrArg Prod.snd hpure
    rcases isErr_eq_ok.mp htried with ⟨-, a, hadd⟩ | ⟨-, e, hadd⟩
    . exact hstep done tx s _ t' hmem hR hadd trivial
    . exact hstep done tx s _ t' hmem hR hadd trivial
  | err e => exact ((hne e).elim h).elim
  | panic => exact hreturns.elim
  | hang => exact hreturns.elim

end

inductive Op where
  | addToPool (chain : BlockChain) (stemTxAccepted : Transaction → Outcome PoolError Unit)
      (tx : Transaction) (stem : Bool) (header : BlockHeader)
  | reconcileBlock (chain : BlockChain) (block : Block)
  | reconcileReorgCache (chain : BlockChain) (header : BlockHeader)

def Op.apply (env : Env) (op : Op) : Routine TransactionPool PoolError Unit :=
  match op with
  | .addToPool chain stemTxAccepted tx stem header =>
    TransactionPool.addToPool env chain stemTxAccepted tx stem header
  | .reconcileBlock chain block => TransactionPool.reconcileBlock env chain block
  | .reconcileReorgCache chain header => TransactionPool.reconcileReorgCache env chain header

-- the pool after calls that all return, with a result or an error
def run (env : Env) (ops : List Op) (tp : TransactionPool) : Option TransactionPool :=
  match ops with
  | [] => some tp
  | op :: ops => if (op.apply env tp).1.Returns then run env ops (op.apply env tp).2 else none

-- every call meets a condition on the pool it finds
def Throughout (env : Env) (cond : TransactionPool → Op → Prop) (ops : List Op) (tp : TransactionPool)
    : Prop :=
  match ops with
  | [] => True
  | op :: ops => cond tp op ∧ Throughout env cond ops (op.apply env tp).2

theorem run_invariant {env : Env} {cond : TransactionPool → Op → Prop} (P : TransactionPool → Prop)
    (hstep : ∀ tp op o tp', P tp → cond tp op → op.apply env tp = (o, tp') → o.Returns → P tp')
    {ops : List Op} {tp tp' : TransactionPool} (hstart : P tp) (hcond : Throughout env cond ops tp)
    (hrun : run env ops tp = some tp')
    : P tp' := by
  induction ops generalizing tp with
  | nil => exact Option.some.inj hrun ▸ hstart
  | cons op ops ih =>
    unfold run at hrun
    split at hrun
    . next hreturns =>
      exact ih (hstep tp op _ _ hstart hcond.1 rfl hreturns) hcond.2 hrun
    . contradiction

-- the cached transactions that are not refused as those of the pool
def cachedOnly (env : Env) (tp : TransactionPool) : List Transaction :=
  tp.reorgCache.filter fun tx => !(tx.body.kernels.length ≤ 1 && tp.txpool.any (·.eq env tx))

-- there is room for what is added from the cache
def Roomy (env : Env) (tp : TransactionPool) (op : Op) : Prop :=
  match op with
  | .reconcileReorgCache _ _ =>
    tp.txpool.length + (tp.cachedOnly env).length ≤ tp.config.maxPoolSize + 1
  | _ => True

section

variable {env : Env} {chain : BlockChain} {tx : Transaction} {header : BlockHeader}
  {tp tp' : TransactionPool} {o : Outcome PoolError Unit}

theorem Entered.eq_of_mem {txpool entries : List Transaction} (hkernels : tx.body.kernels.length ≤ 1)
    (hmem : txpool.any (·.eq env tx) = true) (h : Entered env chain header txpool tx o entries)
    : entries = txpool := by
  cases h with
  | refused => rfl
  | added tx' hdeagg hfresh hvalid =>
    rw [deaggregateEntry, if_neg (by omega), Outcome.ok.injEq] at hdeagg
    rw [hdeagg, hfresh] at hmem
    exact Bool.noConfusion hmem

theorem reconcileReorgCache_length (h : reconcileReorgCache env chain header tp = (o, tp'))
    (hreturns : o.Returns)
    : tp'.config = tp.config ∧ tp'.txpool.length ≤ tp.txpool.length + (tp.cachedOnly env).length := by
  let other (tx : Transaction) : Bool :=
    !(tx.body.kernels.length ≤ 1 && tp.txpool.any (·.eq env tx))
  suffices hgrown : tp'.config = tp.config
      ∧ ∃ l, tp'.txpool = tp.txpool ++ l ∧ l.length ≤ (tp.reorgCache.filter other).length by
    obtain ⟨hconfig, l, htxpool, hlength⟩ := hgrown
    refine ⟨hconfig, ?_⟩
    rw [htxpool, List.length_append]
    exact Nat.add_le_add_left hlength _
  apply reconcileReorgCache_cases (fun done s => s.config = tp.config
    ∧ ∃ l, s.txpool = tp.txpool ++ l ∧ l.length ≤ (done.filter other).length) ?_ ?_ h hreturns
  . exact ⟨rfl, [], by simp, by simp⟩
  . rintro done tx s o t - ⟨hconfig, l, htxpool, hlength⟩ hadd hreturns
    obtain ⟨hconfig', -, hentered⟩ := addToTxpool_cases hadd hreturns
    refine ⟨hconfig'.trans hconfig, ?_⟩
    rw [List.filter_append]
    by_cases hother : other tx = true
    . rw [List.filter_cons_of_pos hother]
      generalize t.txpool = entries at hentered
      cases hentered with
      | refused => exact ⟨l, htxpool, by simp; omega⟩
      | added tx' => exact ⟨l ++ [tx'], by rw [htxpool, List.append_assoc], by simp; omega⟩
    . rw [List.filter_cons_of_neg hother]
      refine ⟨l, ?_, by simpa using hlength⟩
      have hin : tx.body.kernels.length ≤ 1 ∧ tp.txpool.any (·.eq env tx) = true := by
        simpa [other] using hother
      rw [← htxpool]
      apply hentered.eq_of_mem hin.1
      rw [htxpool, List.any_append, hin.2, Bool.true_or]

end

theorem txpool_length_le (env : Env) (config : PoolConfig) {ops : List Op} {tp : TransactionPool}
    (hroom : Throughout env (Roomy env) ops (new config)) (hrun : run env ops (new config) = some tp)
    : tp.txpool.length ≤ config.maxPoolSize + 1 := by
  have hinv := run_invariant (fun tp => tp.config = config ∧ tp.txpool.length ≤ config.maxPoolSize + 1) ?_
    ⟨rfl, Nat.zero_le _⟩ hroom hrun
  . exact hinv.2
  rintro tp op o tp' ⟨rfl, hlength⟩ hcond happly hreturns
  cases op with
  | addToPool chain stemTxAccepted tx stem header =>
    obtain ⟨hconfig, -, hadded⟩ := addToPool_cases happly hreturns
    refine ⟨hconfig, ?_⟩
    cases hadded with
    | unchanged htxpool => rwa [htxpool]
    | added htx hcapacity hentered =>
      obtain ⟨tx', -, -, -, heq⟩ := hentered.eq_append
      rw [heq, List.length_append, List.length_singleton]
      omega
    | evicted txpool htx hstem hcapacity hentered hevicted =>
      obtain ⟨tx', -, -, -, heq⟩ := hentered.eq_append
      have hless := hevicted.length_lt
      rw [heq, List.length_append, List.length_singleton] at hless
      omega
  | reconcileBlock chain block =>
    obtain ⟨hconfig, -, hsublist, -⟩ := reconcileBlock_cases happly hreturns
    exact ⟨hconfig, hsublist.length_le.trans hlength⟩
  | reconcileReorgCache chain header =>
    obtain ⟨hconfig, hle⟩ := reconcileReorgCache_length happly hreturns
    exact ⟨hconfig, hle.trans hcond⟩

-- three transactions that each spend an output of the chain
namespace Sample

def env : Env := Transparent.env .mainnet

def header : BlockHeader := Genesis.genesisMain.header

def chain : BlockChain where
  verifyCoinbaseMaturity _ := .ok ()
  verifyTxLockHeight _ := .ok ()
  validateTx _ := .ok ()
  chainHead := .ok header
  getBlockSums _ := .ok ⟨commitToZeroValue, commitToZeroValue⟩

def output (value blind : ℤ) : Output := ⟨.plain, Transparent.encode (value, blind), .zero⟩

def input (value blind : ℤ) : Input := ⟨.plain, Transparent.encode (value, blind)⟩

def kernel (fee : UInt64) (blind : ℤ) : TxKernel :=
  ⟨.plain, fee, 0, Transparent.encode (0, blind), .replicate 64 0⟩

def spend (value : ℤ) (fee : UInt64) : Transaction :=
  ⟨.zero, ⟨[input value 1], [output (value - fee.toNat) 2], [kernel fee 1]⟩⟩

def add (tx : Transaction) : Op := .addToPool chain (fun _ => .ok ()) tx false header

def config : PoolConfig := ⟨0, 1, 1⟩

-- the last of the transactions is evicted at once, and added again from the cache
def evicting : List Op :=
  [add (spend 10 3), add (spend 20 2), add (spend 30 1), .reconcileReorgCache chain header]

def roomy : List Op := [add (spend 10 3), add (spend 20 2), .reconcileReorgCache chain header]

end Sample

theorem txpool_length_le_roomy
    : (run Sample.env Sample.roomy (new Sample.config)).map (·.txpool.length) = some 2
        ∧ ∀ tp, run Sample.env Sample.roomy (new Sample.config) = some tp → tp.txpool.length ≤ 2 :=
  ⟨by decide, fun _ => txpool_length_le Sample.env Sample.config
    ⟨trivial, trivial, by unfold Roomy; decide, trivial⟩⟩

theorem txpool_outgrows_capacity
    : (run Sample.env Sample.evicting (new Sample.config)).map (·.txpool.length)
        = some (Sample.config.maxPoolSize + 2) := by
  decide

end TransactionPool

end Epic
