import Epic.Core.Block.Assemble
import Epic.Core.Ser.Reader
import Epic.Core.Transaction.CutThrough
import Epic.Core.Transparent
import Epic.Util.Bytes

/-!
This module contains compact blocks: a block without what a node already knows from the transactions, and
the block that is put together again from them. The block was built from lists of inputs, outputs and
kernels, it is put together from sets.
-/

namespace Epic

open Ser

section

variable (env : Env) (siphash24 : UInt64 → UInt64 → List UInt8 → UInt64)

def TxKernel.shortId (k : TxKernel) (hash : Hash) (nonce : UInt64) : ShortId :=
  let hashWithNonce := env.blake2b (hash.write ++ writeU64 nonce)
  let k0 := UInt64.ofNat (Bytes.ofBE (hashWithNonce.bytes.take 8).reverse)
  let k1 := UInt64.ofNat (Bytes.ofBE ((hashWithNonce.bytes.drop 8).take 8).reverse)
  let res := siphash24 k0 k1 (k.hash env).bytes
  ⟨(Bytes.beBytes 8 res.toNat).reverse.take 6, by simp⟩

def CompactBlockBody.write (body : CompactBlockBody) : List UInt8 :=
  writeU64 (UInt64.ofNat body.outFull.length)
    ++ writeU64 (UInt64.ofNat body.kernFull.length)
    ++ writeU64 (UInt64.ofNat body.kernIds.length)
    ++ body.outFull.flatMap (Output.write .full)
    ++ body.kernFull.flatMap TxKernel.write
    ++ body.kernIds.flatMap (·.toList)

def CompactBlock.write (ct : ChainTypes) (mode : SerializationMode) (cb : CompactBlock) : List UInt8 :=
  let body :=
    match mode with
    | .full => writeU64 cb.nonce ++ cb.body.write
    | .hash => []
  cb.header.write ct mode ++ body

def CompactBlockBody.sort (body : CompactBlockBody) : CompactBlockBody where
  outFull := sortByHash (·.hash env) body.outFull
  kernFull := sortByHash (·.hash env) body.kernFull
  kernIds := sortByHash (·.hash env) body.kernIds

def CompactBlock.fromBlock (nonce : UInt64) (block : Block) : CompactBlock where
  header := block.header
  nonce := nonce
  body := CompactBlockBody.sort env
    { outFull := block.body.outputs.filter (·.isCoinbase)
      kernFull := block.body.kernels.filter (·.isCoinbase)
      kernIds := (block.body.kernels.filter (!·.isCoinbase)).map
        (·.shortId env siphash24 (block.header.hash env) nonce) }

-- sets of elements are lists without repetition here, they are sorted before they are used
def Block.hydrateFrom (cb : CompactBlock) (txs : List Transaction) : Outcome BlockError Block := do
  let allInputs := (txs.flatMap (·.body.inputs)).dedup
  let allOutputs := (txs.flatMap (·.body.outputs) ++ cb.body.outFull).dedup
  let allKernels := (txs.flatMap (·.body.kernels) ++ cb.body.kernFull).dedup
  let body ← (TransactionBody.init env allInputs allOutputs allKernels false).mapErr .transaction
  Block.cutThrough env ⟨cb.header, body⟩

end

section

variable {α : Type} {hash : α → Hash}

def Distinguished (hash : α → Hash) (l : List α) : Prop := ∀ a ∈ l, ∀ b ∈ l, hash a = hash b → a = b

theorem sortByHash_eq_of_count (hinj : ∀ a ∈ l, ∀ b ∈ k, hash a = hash b → a = b)
    (hcount : ∀ x, (l.map hash).count x = (k.map hash).count x)
    : sortByHash hash l = sortByHash hash k := by
  have hl := perm_sortByHash hash l
  have hk := perm_sortByHash hash k
  apply eq_of_map_hash_eq
  . intro a ha b hb
    exact hinj a (hl.mem_iff.mp ha) b (hk.mem_iff.mp hb)
  . apply map_hash_eq_of_count (sorted_sortByHash _ l) (sorted_sortByHash _ k)
    intro x
    rw [(hl.map hash).count_eq, (hk.map hash).count_eq, hcount]

theorem count_dedup [DecidableEq α] (hinj : Distinguished hash l) (x : Hash)
    : (l.dedup.map hash).count x = min ((l.map hash).count x) 1 := by
  have hnodup : (l.dedup.map hash).Nodup := by
    apply List.Nodup.map_on _ l.nodup_dedup
    intro a ha b hb
    exact hinj a (List.mem_dedup.mp ha) b (List.mem_dedup.mp hb)
  have hmem : x ∈ l.dedup.map hash ↔ x ∈ l.map hash := by simp
  by_cases hx : x ∈ l.map hash
  . have hpos := List.count_pos_iff.mpr hx
    rw [List.count_eq_one_of_mem hnodup (hmem.mpr hx)]
    omega
  . rw [List.count_eq_zero_of_not_mem hx, List.count_eq_zero_of_not_mem (mt hmem.mp hx), Nat.zero_min]

theorem nodup_iff_count [DecidableEq α] (hinj : Distinguished hash l)
    : l.Nodup ↔ ∀ x, (l.map hash).count x ≤ 1 := by
  rw [← List.nodup_iff_count_le_one]
  constructor
  . exact List.Nodup.map_on hinj
  . exact List.Nodup.of_map hash

theorem count_insertByHash (x : Hash) (a : α) (l : List α)
    : ((insertByHash hash a l).map hash).count x
        =
      if hash a = x then max ((l.map hash).count x) 1 else (l.map hash).count x := by
  rcases insertByHash_cases hash a l with ⟨heq, hmem⟩ | ⟨hperm, hnot⟩
  . rw [heq]
    split
    next hx =>
      have hpos := List.count_pos_iff.mpr (hx ▸ hmem)
      omega
    next => rfl
  . simp only [(hperm.map hash).count_eq, List.map_cons, List.count_cons, beq_iff_eq]
    split
    next hx => rw [← hx, List.count_eq_zero_of_not_mem hnot]; rfl
    next => rfl

theorem mem_insertByHash (h : b ∈ insertByHash hash a l)
    : b ∈ l ∨ (b = a ∧ hash a ∉ l.map hash) := by
  rcases insertByHash_cases hash a l with ⟨heq, -⟩ | ⟨hperm, hnot⟩
  . exact .inl (heq ▸ h)
  . rcases List.mem_cons.mp (hperm.mem_iff.mp h) with rfl | hb
    . exact .inr ⟨rfl, hnot⟩
    . exact .inl hb

end

namespace Block

section

variable {env : Env} {now : DateTime} {prev : BlockHeader} {difficulty : Difficulty}
  {txs : List Transaction} {rewardOut : Output} {rewardKern : TxKernel} {b : Block}

structure MadeOf (env : Env) (txs : List Transaction) (rewardOut : Output) (rewardKern : TxKernel)
    (body : TransactionBody) : Prop where
  sorted : body.sort env = body
  mem_inputs : ∀ i ∈ body.inputs, i ∈ txs.flatMap (·.body.inputs)
  mem_outputs : ∀ o ∈ body.outputs, o ∈ txs.flatMap (·.body.outputs)
    ∨ (o = rewardOut ∧ rewardOut.hash env ∉ (txs.flatMap (·.body.outputs)).map (Output.hash env))
  mem_kernels : ∀ k ∈ body.kernels, k ∈ rewardKern :: txs.flatMap (·.body.kernels)
  count_outputs : ∀ x, (body.outputs.map (Output.hash env)).count x
    = if rewardOut.hash env = x then 1 else
        ((txs.flatMap (·.body.outputs)).map (Output.hash env)).count x
          - ((txs.flatMap (·.body.inputs)).map (Input.hash env)).count x

structure Assembled (env : Env) (txs : List Transaction) (rewardOut : Output) (rewardKern : TxKernel)
    (body : TransactionBody) : Prop extends MadeOf env txs rewardOut rewardKern body where
  nodup : ((txs.flatMap (·.body.outputs)).map (Output.hash env)).Nodup
  count_inputs : ∀ x, (body.inputs.map (Input.hash env)).count x
    = ((txs.flatMap (·.body.inputs)).map (Input.hash env)).count x
      - ((txs.flatMap (·.body.outputs)).map (Output.hash env)).count x
  count_kernels : ∀ x, (body.kernels.map (TxKernel.hash env)).count x
    = if rewardKern.hash env = x
        then max (((txs.flatMap (·.body.kernels)).map (TxKernel.hash env)).count x) 1
        else ((txs.flatMap (·.body.kernels)).map (TxKernel.hash env)).count x

theorem assembled_fromReward
    (hunspent : rewardOut.hash env ∉ (txs.flatMap (·.body.inputs)).map (Input.hash env))
    (h : fromReward env now prev txs rewardOut rewardKern difficulty = .ok b)
    : Assembled env txs rewardOut rewardKern b.body := by
  obtain ⟨aggTx, hagg, h⟩ := Outcome.bind_eq_ok.mp h
  have hagg := Transaction.aggregate_eq_ok (Outcome.mapErr_eq_ok.mp hagg)
  obtain ⟨-, inputs, outputs, hcut, hbody⟩ := fromAggregate_eq_ok h
  have hcuts := Transaction.cutThrough_eq_ok hcut
  simp only [Transaction.withKernel, Transaction.withOutput, TransactionBody.withKernel,
    TransactionBody.withOutput] at hcuts hbody
  have hinputs := perm_sortByHash (Input.hash env) inputs
  have houtputs := perm_sortByHash (Output.hash env) outputs
  have hkernels := perm_sortByHash (TxKernel.hash env)
    (insertByHash (TxKernel.hash env) rewardKern aggTx.body.kernels)
  have hzero : (aggTx.body.inputs.map (Input.hash env)).count (rewardOut.hash env) = 0 := by
    apply List.count_eq_zero_of_not_mem
    intro hmem
    obtain ⟨i, hi, heq⟩ := List.mem_map.mp hmem
    exact hunspent (List.mem_map.mpr ⟨i, hagg.mem_inputs i hi, heq⟩)
  have hzero' := List.count_eq_zero_of_not_mem hunspent
  -- with the reward added the outputs are distinct, hence without it they were
  have hnodup : ((txs.flatMap (·.body.outputs)).map (Output.hash env)).Nodup := by
    apply hagg.nodup
    rw [List.nodup_iff_count_le_one]
    intro x
    have hle := List.nodup_iff_count_le_one.mp hcuts.nodup x
    rw [count_insertByHash] at hle
    split at hle <;> omega
  have hreward := hagg.count_outputs (rewardOut.hash env)
  rw [hbody]
  refine ⟨⟨?_, ?_, ?_, ?_, ?_⟩, hnodup, ?_, ?_⟩
  . simp only [TransactionBody.sort, sortByHash_of_sorted (sorted_sortByHash _ _)]
  . exact fun i hi => hagg.mem_inputs i (hcuts.mem_inputs i (hinputs.mem_iff.mp hi))
  . intro o ho
    rcases mem_insertByHash (hcuts.mem_outputs o (houtputs.mem_iff.mp ho)) with ho | ⟨rfl, hnot⟩
    . exact .inl (hagg.mem_outputs o ho)
    . right
      refine ⟨rfl, List.count_eq_zero.mp ?_⟩
      rw [List.count_eq_zero_of_not_mem hnot, hzero'] at hreward
      omega
  . intro k hk
    rcases mem_insertByHash (hkernels.mem_iff.mp hk) with hk | ⟨rfl, -⟩
    . exact List.mem_cons_of_mem _ (hagg.kernels.mem_iff.mp hk)
    . exact List.mem_cons_self
  . intro x
    have hx := hagg.count_outputs x
    have hle := List.nodup_iff_count_le_one.mp hcuts.nodup x
    rw [count_insertByHash] at hle
    simp only [TransactionBody.sort, (houtputs.map _).count_eq, hcuts.count_outputs, count_insertByHash]
    split
    next heq =>
      subst heq
      rw [if_pos rfl] at hle
      omega
    next => exact hx
  . intro x
    have hx := hagg.count_inputs x
    simp only [TransactionBody.sort, (hinputs.map _).count_eq, hcuts.count_inputs, count_insertByHash]
    split
    next heq =>
      subst heq
      omega
    next => exact hx
  . intro x
    simp only [TransactionBody.sort, (hkernels.map _).count_eq, count_insertByHash,
      (hagg.kernels.map _).count_eq]

theorem mem_fromBlock
    : (∀ o, o ∈ (CompactBlock.fromBlock env siphash24 nonce b).body.outFull
          ↔ o ∈ b.body.outputs ∧ o.isCoinbase)
        ∧
      (∀ k, k ∈ (CompactBlock.fromBlock env siphash24 nonce b).body.kernFull
          ↔ k ∈ b.body.kernels ∧ k.isCoinbase) := by
  constructor
  . intro o
    exact (perm_sortByHash _ _).mem_iff.trans List.mem_filter
  . intro k
    exact (perm_sortByHash _ _).mem_iff.trans List.mem_filter

structure Collected (env : Env) (txs : List Transaction) (rewardOut : Output) (rewardKern : TxKernel)
    (cb : CompactBlock) : Prop where
  mem_outputs : ∀ o ∈ txs.flatMap (·.body.outputs) ++ cb.body.outFull, o ∈ txs.flatMap (·.body.outputs)
    ∨ (o = rewardOut ∧ rewardOut.hash env ∉ (txs.flatMap (·.body.outputs)).map (Output.hash env))
  mem_kernels : ∀ k ∈ txs.flatMap (·.body.kernels) ++ cb.body.kernFull,
    k ∈ rewardKern :: txs.flatMap (·.body.kernels)
  count_outputs : ∀ x,
    (((txs.flatMap (·.body.outputs) ++ cb.body.outFull).dedup).map (Output.hash env)).count x
      =
    if rewardOut.hash env = x then 1 else ((txs.flatMap (·.body.outputs)).map (Output.hash env)).count x
  count_kernels : ∀ x,
    (((txs.flatMap (·.body.kernels) ++ cb.body.kernFull).dedup).map (TxKernel.hash env)).count x
      =
    if rewardKern.hash env = x then 1 else
      min (((txs.flatMap (·.body.kernels)).map (TxKernel.hash env)).count x) 1

theorem hash_inj_outputs (h : ((txs.flatMap (·.body.outputs)).map (Output.hash env)).Nodup) {o o' : Output}
    (ho : o ∈ txs.flatMap (·.body.outputs)
      ∨ (o = rewardOut ∧ rewardOut.hash env ∉ (txs.flatMap (·.body.outputs)).map (Output.hash env)))
    (ho' : o' ∈ txs.flatMap (·.body.outputs)
      ∨ (o' = rewardOut ∧ rewardOut.hash env ∉ (txs.flatMap (·.body.outputs)).map (Output.hash env)))
    (heq : o.hash env = o'.hash env)
    : o = o' := by
  rcases ho with ho | ⟨rfl, hnot⟩ <;> rcases ho' with ho' | ⟨rfl, hnot'⟩
  . exact List.inj_on_of_nodup_map h ho ho' heq
  . exact absurd (List.mem_map.mpr ⟨o, ho, heq⟩) hnot'
  . exact absurd (List.mem_map.mpr ⟨o', ho', heq.symm⟩) hnot
  . rfl

theorem count_collected {α : Type} [DecidableEq α] {hash : α → Hash} {l full : List α} (reward : α)
    (hinj : Distinguished hash (l ++ full)) (hfull : ∀ a ∈ full, a ∈ l ∨ a = reward)
    (hreward : ∃ a ∈ l ++ full, hash a = hash reward) (x : Hash)
    : ((l ++ full).dedup.map hash).count x
        =
      if hash reward = x then 1 else min ((l.map hash).count x) 1 := by
  rw [count_dedup hinj]
  split
  next hx =>
    have hpos := List.count_pos_iff.mpr (List.mem_map.mpr (hx ▸ hreward))
    omega
  next hx =>
    have hmem : x ∈ (l ++ full).map hash ↔ x ∈ l.map hash := by
      rw [List.map_append, List.mem_append, or_iff_left_of_imp]
      intro hin
      obtain ⟨a, ha, heq⟩ := List.mem_map.mp hin
      rcases hfull a ha with ha | rfl
      . exact List.mem_map.mpr ⟨a, ha, heq⟩
      . exact absurd heq hx
    rw [← List.count_pos_iff, ← List.count_pos_iff] at hmem
    omega

theorem collected_fromBlock {siphash24 : UInt64 → UInt64 → List UInt8 → UInt64} {nonce : UInt64}
    (hout : rewardOut.isCoinbase) (hkern : rewardKern.isCoinbase)
    (hdist : Distinguished (TxKernel.hash env) (rewardKern :: txs.flatMap (·.body.kernels)))
    (h : Assembled env txs rewardOut rewardKern b.body)
    : Collected env txs rewardOut rewardKern (CompactBlock.fromBlock env siphash24 nonce b) := by
  obtain ⟨hmemOut, hmemKern⟩ := @mem_fromBlock env b siphash24 nonce
  generalize CompactBlock.fromBlock env siphash24 nonce b = cb at *
  have houtputs : ∀ o ∈ txs.flatMap (·.body.outputs) ++ cb.body.outFull, o ∈ txs.flatMap (·.body.outputs)
      ∨ (o = rewardOut ∧ rewardOut.hash env ∉ (txs.flatMap (·.body.outputs)).map (Output.hash env)) := by
    intro o ho
    rcases List.mem_append.mp ho with ho | ho
    . exact .inl ho
    . exact h.mem_outputs o ((hmemOut o).mp ho).1
  have hkernels : ∀ k ∈ txs.flatMap (·.body.kernels) ++ cb.body.kernFull,
      k ∈ rewardKern :: txs.flatMap (·.body.kernels) := by
    intro k hk
    rcases List.mem_append.mp hk with hk | hk
    . exact List.mem_cons_of_mem _ hk
    . exact h.mem_kernels k ((hmemKern k).mp hk).1
  refine ⟨houtputs, hkernels, fun x => ?_, ?_⟩
  . rw [count_collected rewardOut, min_eq_left (List.nodup_iff_count_le_one.mp h.nodup x)]
    . exact fun o ho o' ho' => hash_inj_outputs h.nodup (houtputs o ho) (houtputs o' ho')
    . exact fun o ho => (houtputs o (List.mem_append_right _ ho)).imp_right And.left
    . have hcount := h.count_outputs (rewardOut.hash env)
      rw [if_pos rfl] at hcount
      obtain ⟨o, ho, heq⟩ := List.mem_map.mp (List.count_pos_iff.mp (hcount ▸ Nat.one_pos))
      refine ⟨o, List.mem_append.mpr ?_, heq⟩
      rcases h.mem_outputs o ho with hin | ⟨rfl, -⟩
      . exact .inl hin
      . exact .inr ((hmemOut o).mpr ⟨ho, hout⟩)
  . apply count_collected
    . exact fun k hk k' hk' => hdist k (hkernels k hk) k' (hkernels k' hk')
    . exact fun k hk => (List.mem_cons.mp (hkernels k (List.mem_append_right _ hk))).symm
    . have hcount := h.count_kernels (rewardKern.hash env)
      rw [if_pos rfl] at hcount
      obtain ⟨k, hk, heq⟩ := List.mem_map.mp (List.count_pos_iff.mp (hcount ▸ lt_max_of_lt_right Nat.one_pos))
      refine ⟨k, List.mem_append.mpr ?_, heq⟩
      rcases List.mem_cons.mp (h.mem_kernels k hk) with rfl | hin
      . exact .inr ((hmemKern k).mpr ⟨hk, hkern⟩)
      . exact .inl hin

structure Hydrated (env : Env) (txs : List Transaction) (rewardOut : Output) (rewardKern : TxKernel)
    (body : TransactionBody) : Prop extends MadeOf env txs rewardOut rewardKern body where
  count_inputs : ∀ x, (body.inputs.map (Input.hash env)).count x
    = min (((txs.flatMap (·.body.inputs)).map (Input.hash env)).count x) 1
      - ((txs.flatMap (·.body.outputs)).map (Output.hash env)).count x
  count_kernels : ∀ x, (body.kernels.map (TxKernel.hash env)).count x
    = if rewardKern.hash env = x then 1 else
        min (((txs.flatMap (·.body.kernels)).map (TxKernel.hash env)).count x) 1

theorem exists_hydrateFrom {cb : CompactBlock}
    (hunspent : rewardOut.hash env ∉ (txs.flatMap (·.body.inputs)).map (Input.hash env))
    (hdist : Distinguished (Input.hash env) (txs.flatMap (·.body.inputs)))
    (h : ((txs.flatMap (·.body.outputs)).map (Output.hash env)).Nodup)
    (hcb : Collected env txs rewardOut rewardKern cb)
    : ∃ body, hydrateFrom env cb txs = .ok ⟨cb.header, body⟩
        ∧ Hydrated env txs rewardOut rewardKern body := by
  generalize hallInputs : (txs.flatMap (·.body.inputs)).dedup = allInputs
  generalize hallOutputs : (txs.flatMap (·.body.outputs) ++ cb.body.outFull).dedup = allOutputs
  generalize hallKernels : (txs.flatMap (·.body.kernels) ++ cb.body.kernFull).dedup = allKernels
  have hinputs := perm_sortByHash (Input.hash env) allInputs
  have houtputs := perm_sortByHash (Output.hash env) allOutputs
  have hkernels := perm_sortByHash (TxKernel.hash env) allKernels
  have hcountOut := hcb.count_outputs
  have hcountIn := count_dedup hdist
  have hcountKern := hcb.count_kernels
  rw [hallOutputs] at hcountOut
  rw [hallInputs] at hcountIn
  rw [hallKernels] at hcountKern
  have hnodup : ((sortByHash (Output.hash env) allOutputs).map (Output.hash env)).Nodup := by
    rw [List.nodup_iff_count_le_one]
    intro x
    have hle := List.nodup_iff_count_le_one.mp h x
    rw [(houtputs.map _).count_eq, hcountOut]
    split <;> omega
  obtain ⟨inputs, outputs, hcut⟩ :=
    Transaction.exists_cutThrough (sortByHash (Input.hash env) allInputs) hnodup
  have hcuts := Transaction.cutThrough_eq_ok hcut
  have hin := perm_sortByHash (Input.hash env) inputs
  have hout := perm_sortByHash (Output.hash env) outputs
  have hkern := perm_sortByHash (TxKernel.hash env) (sortByHash (TxKernel.hash env) allKernels)
  refine ⟨(⟨inputs, outputs, sortByHash (TxKernel.hash env) allKernels⟩ : TransactionBody).sort env,
    ?_, ⟨⟨?_, ?_, ?_, ?_, ?_⟩, ?_, ?_⟩⟩
  . simp only [hydrateFrom, hallInputs, hallOutputs, hallKernels]
    exact Outcome.bind_eq_ok.mpr ⟨_, rfl, Outcome.bind_eq_ok.mpr
      ⟨_, Outcome.mapErr_eq_ok.mpr hcut, Outcome.bind_eq_ok.mpr ⟨_, rfl, rfl⟩⟩⟩
  . simp only [TransactionBody.sort, sortByHash_of_sorted (sorted_sortByHash _ _)]
  . intro i hi
    have hi := hinputs.mem_iff.mp (hcuts.mem_inputs i (hin.mem_iff.mp hi))
    exact List.mem_dedup.mp (hallInputs ▸ hi)
  . intro o ho
    have ho := houtputs.mem_iff.mp (hcuts.mem_outputs o (hout.mem_iff.mp ho))
    exact hcb.mem_outputs o (List.mem_dedup.mp (hallOutputs ▸ ho))
  . intro k hk
    have hk := hkernels.mem_iff.mp (hkern.mem_iff.mp hk)
    exact hcb.mem_kernels k (List.mem_dedup.mp (hallKernels ▸ hk))
  . intro x
    have hle := List.nodup_iff_count_le_one.mp h x
    simp only [TransactionBody.sort, (hout.map _).count_eq, hcuts.count_outputs, (hinputs.map _).count_eq,
      (houtputs.map _).count_eq, hcountIn, hcountOut]
    split
    next heq => rw [← heq, List.count_eq_zero_of_not_mem hunspent]; rfl
    next => omega
  . intro x
    simp only [TransactionBody.sort, (hin.map _).count_eq, hcuts.count_inputs, (hinputs.map _).count_eq,
      (houtputs.map _).count_eq, hcountIn, hcountOut]
    split
    next heq =>
      rw [← heq, List.count_eq_zero_of_not_mem hunspent]
      omega
    next => rfl
  . intro x
    simp only [TransactionBody.sort, (hkern.map _).count_eq, (hkernels.map _).count_eq, hcountKern]

theorem eq_iff_count {α : Type} {hash : α → Hash} {l k : List α} (hl : sortByHash hash l = l)
    (hk : sortByHash hash k = k) (hinj : ∀ a ∈ l, ∀ b ∈ k, hash a = hash b → a = b)
    : l = k ↔ ∀ x, (l.map hash).count x = (k.map hash).count x := by
  constructor
  . rintro rfl x
    rfl
  . intro hcount
    rw [← hl, ← hk]
    exact sortByHash_eq_of_count hinj hcount

theorem hydrateFrom_eq_iff {siphash24 : UInt64 → UInt64 → List UInt8 → UInt64} {nonce : UInt64}
    (hout : rewardOut.isCoinbase) (hkern : rewardKern.isCoinbase)
    (hunspent : rewardOut.hash env ∉ (txs.flatMap (·.body.inputs)).map (Input.hash env))
    (hinputs : Distinguished (Input.hash env) (txs.flatMap (·.body.inputs)))
    (hkernels : Distinguished (TxKernel.hash env) (rewardKern :: txs.flatMap (·.body.kernels)))
    (h : fromReward env now prev txs rewardOut rewardKern difficulty = .ok b)
    : hydrateFrom env (CompactBlock.fromBlock env siphash24 nonce b) txs = .ok b
        ↔
      (txs.flatMap (·.body.inputs)).Nodup ∧ (txs.flatMap (·.body.kernels)).Nodup := by
  have hbuilt := assembled_fromReward hunspent h
  have hcb := @collected_fromBlock env txs rewardOut rewardKern b siphash24 nonce hout hkern hkernels hbuilt
  obtain ⟨body, hbody, hhyd⟩ := exists_hydrateFrom hunspent hinputs hbuilt.nodup hcb
  have hlists : (CompactBlock.fromBlock env siphash24 nonce b).header = b.header ∧ body = b.body
      ↔ body.inputs = b.body.inputs ∧ body.outputs = b.body.outputs ∧ body.kernels = b.body.kernels := by
    constructor
    . rintro ⟨-, rfl⟩
      exact ⟨rfl, rfl, rfl⟩
    . rintro ⟨hin, hout, hkern⟩
      exact ⟨rfl, TransactionBody.mk.injEq .. ▸ ⟨hin, hout, hkern⟩⟩
  -- of every hash there is at most one output, so that only inputs and kernels can differ
  have hin : body.inputs = b.body.inputs ↔ (txs.flatMap (·.body.inputs)).Nodup := by
    rw [eq_iff_count (congrArg (·.inputs) hhyd.sorted) (congrArg (·.inputs) hbuilt.sorted)
      fun i hi j hj => hinputs i (hhyd.mem_inputs i hi) j (hbuilt.mem_inputs j hj), nodup_iff_count hinputs]
    refine forall_congr' fun x => ?_
    have hle := List.nodup_iff_count_le_one.mp hbuilt.nodup x
    rw [hhyd.count_inputs, hbuilt.count_inputs]
    omega
  have hout : body.outputs = b.body.outputs := by
    rw [eq_iff_count (congrArg (·.outputs) hhyd.sorted) (congrArg (·.outputs) hbuilt.sorted)
      fun o ho p hp => hash_inj_outputs hbuilt.nodup (hhyd.mem_outputs o ho) (hbuilt.mem_outputs p hp)]
    intro x
    rw [hhyd.count_outputs, hbuilt.count_outputs]
  have hkern : body.kernels = b.body.kernels ↔ (txs.flatMap (·.body.kernels)).Nodup := by
    rw [eq_iff_count (congrArg (·.kernels) hhyd.sorted) (congrArg (·.kernels) hbuilt.sorted)
      fun k hk l hl => hkernels k (hhyd.mem_kernels k hk) l (hbuilt.mem_kernels l hl),
      nodup_iff_count fun k hk l hl =>
        hkernels k (List.mem_cons_of_mem _ hk) l (List.mem_cons_of_mem _ hl)]
    refine forall_congr' fun x => ?_
    rw [hhyd.count_kernels, hbuilt.count_kernels]
    split <;> omega
  rw [hbody, Outcome.ok.injEq, Block.mk.injEq, hlists, hin, hkern, and_iff_right hout]

end

namespace Sample

def env : Env := Transparent.env .mainnet

def siphash24 (_ _ : UInt64) (_ : List UInt8) : UInt64 := 0

def tx (input output kernel : ℤ) : Transaction :=
  ⟨.zero, ⟨[⟨.plain, Transparent.encode (input, 1)⟩], [⟨.plain, Transparent.encode (output, 1), .zero⟩],
    [⟨.plain, 0, 0, Transparent.encode (0, kernel), .replicate 64 0⟩]⟩⟩

def reward : Output × TxKernel :=
  (⟨.coinbase, Transparent.encode (60, 1), .zero⟩,
    ⟨.coinbase, 0, 0, Transparent.encode (0, 9), .replicate 64 0⟩)

def fromReward (txs : List Transaction) : Outcome BlockError Block :=
  Block.fromReward env .epoch (.default .mainnet) txs reward.1 reward.2 (.fromNum 1)

def hydrateFrom (txs : List Transaction) (b : Block) : Outcome BlockError Block :=
  Block.hydrateFrom env (CompactBlock.fromBlock env siphash24 0 b) txs

-- the second transaction spends what the first one creates
def chained : List Transaction := [tx 1 2 1, tx 2 3 2]

-- the second transaction creates again what the first one spends, and the third one spends it again
def respent : List Transaction := [tx 1 2 1, tx 3 1 2, tx 1 4 3]

end Sample

theorem hydrateFrom_eq_chained
    : (do
        let b ← Sample.fromReward Sample.chained
        return b.body.inputs.length) = Outcome.ok 1
        ∧
      ∀ b, Sample.fromReward Sample.chained = .ok b → Sample.hydrateFrom Sample.chained b = .ok b := by
  refine ⟨?_, fun b h => (hydrateFrom_eq_iff rfl rfl ?_ ?_ ?_ h).mpr ⟨?_, ?_⟩⟩
  . decide
  . decide
  . unfold Distinguished
    decide
  . unfold Distinguished
    decide
  . decide
  . decide

theorem hydrateFrom_loses_input
    : (do
        let b ← Sample.fromReward Sample.respent
        let b' ← Sample.hydrateFrom Sample.respent b
        return (b.body.inputs.length, b'.body.inputs.length)) = Outcome.ok (2, 1) := by
  decide

end Block

end Epic
