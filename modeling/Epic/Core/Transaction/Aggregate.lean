import Epic.Core.Transaction
import Mathlib.Data.List.Sort

/-!
This module contains how transactions are put together: an output or a kernel is sorted into a body, and
a list of transactions is aggregated into one, without the outputs that the transactions spend among
themselves. Inputs, outputs and kernels are ordered by their hashes.
-/

namespace Epic

open Ser

section

variable {α : Type}

def sortByHash (hash : α → Hash) (l : List α) : List α :=
  l.insertionSort fun a b => ¬ hash b < hash a

-- nothing is added if there is an element with the same hash
def insertByHash (hash : α → Hash) (x : α) (l : List α) : List α :=
  if l.any fun a => hash a = hash x then
    l
  else
    l.orderedInsert (fun a b => ¬ hash b < hash a) x

def hasTwins (hashes : List Hash) : Bool :=
  match hashes with
  | a :: b :: rest => decide (a = b) || hasTwins (b :: rest)
  | _ => false

@[simp]
theorem length_sortByHash (hash : α → Hash) (l : List α)
    : (sortByHash hash l).length = l.length := List.length_insertionSort _ l

theorem length_insertByHash_le (hash : α → Hash) (x : α) (l : List α)
    : (insertByHash hash x l).length ≤ l.length + 1 := by
  unfold insertByHash
  split
  . exact Nat.le_succ _
  . exact (List.orderedInsert_length _ l x).le

theorem insertByHash_cases (hash : α → Hash) (a : α) (l : List α)
    : (insertByHash hash a l = l ∧ hash a ∈ l.map hash)
        ∨
      ((insertByHash hash a l).Perm (a :: l) ∧ hash a ∉ l.map hash) := by
  unfold insertByHash
  split
  next h =>
    left
    obtain ⟨b, hb, heq⟩ := List.any_eq_true.mp h
    exact ⟨rfl, List.mem_map.mpr ⟨b, hb, of_decide_eq_true heq⟩⟩
  next h =>
    right
    refine ⟨List.perm_orderedInsert _ a l, ?_⟩
    rintro hmem
    obtain ⟨b, hb, heq⟩ := List.mem_map.mp hmem
    exact h (List.any_eq_true.mpr ⟨b, hb, decide_eq_true heq⟩)

theorem perm_insertByHash {hash : α → Hash} {a : α} {l : List α} (h : ∀ b ∈ l, hash b ≠ hash a)
    : (insertByHash hash a l).Perm (a :: l) := by
  rcases insertByHash_cases hash a l with ⟨-, hmem⟩ | ⟨hperm, -⟩
  . obtain ⟨b, hb, heq⟩ := List.mem_map.mp hmem
    exact absurd heq (h b hb)
  . exact hperm

end

namespace TransactionBody

def sort (env : Env) (body : TransactionBody) : TransactionBody where
  inputs := sortByHash (·.hash env) body.inputs
  outputs := sortByHash (·.hash env) body.outputs
  kernels := sortByHash (·.hash env) body.kernels

def init (env : Env) (inputs : List Input) (outputs : List Output) (kernels : List TxKernel)
    (verifySorted : Bool)
    : Outcome TransactionError TransactionBody := do
  let body : TransactionBody := ⟨inputs, outputs, kernels⟩
  if verifySorted then
    body.verifySorted env
    return body
  else
    return body.sort env

def withOutput (env : Env) (body : TransactionBody) (output : Output) : TransactionBody :=
  { body with outputs := insertByHash (·.hash env) output body.outputs }

def withKernel (env : Env) (body : TransactionBody) (kernel : TxKernel) : TransactionBody :=
  { body with kernels := insertByHash (·.hash env) kernel body.kernels }

-- the weight that is not critical for consensus, inputs lower it
def weight (inputLen outputLen kernelLen : Nat) : Nat :=
  let cap (n : Nat) := min n (2 ^ 64 - 1)
  max (cap (cap (outputLen * 4) + kernelLen) - inputLen) 1

def bodyWeight (body : TransactionBody) : Nat :=
  weight body.inputs.length body.outputs.length body.kernels.length

end TransactionBody

namespace Transaction

def empty : Transaction := ⟨.zero, .empty⟩

def new (env : Env) (inputs : List Input) (outputs : List Output) (kernels : List TxKernel)
    : Transaction :=
  ⟨.zero, (⟨inputs, outputs, kernels⟩ : TransactionBody).sort env⟩

def withOffset (tx : Transaction) (offset : BlindingFactor) : Transaction := { tx with offset := offset }

def withOutput (env : Env) (tx : Transaction) (output : Output) : Transaction :=
  { tx with body := tx.body.withOutput env output }

def withKernel (env : Env) (tx : Transaction) (kernel : TxKernel) : Transaction :=
  { tx with body := tx.body.withKernel env kernel }

def fee (tx : Transaction) : UInt64 := tx.body.fee

def overage (tx : Transaction) : Int64 := tx.body.overage

def txWeight (tx : Transaction) : Nat := tx.body.bodyWeight

-- two transactions are the same if their elements have the same hashes, whatever the range proofs are
def eq (env : Env) (tx other : Transaction) : Bool :=
  tx.body.inputs.map (·.hash env) = other.body.inputs.map (·.hash env)
    && tx.body.outputs.map (·.hash env) = other.body.outputs.map (·.hash env)
    && tx.body.kernels.map (·.hash env) = other.body.kernels.map (·.hash env)
    && tx.offset = other.offset

def hash (env : Env) (tx : Transaction) : Hash :=
  env.blake2b (tx.offset.toList
    ++ writeU64 (UInt64.ofNat tx.body.inputs.length)
    ++ writeU64 (UInt64.ofNat tx.body.outputs.length)
    ++ writeU64 (UInt64.ofNat tx.body.kernels.length)
    ++ tx.body.inputs.flatMap Input.write
    ++ tx.body.outputs.flatMap (Output.write .hash)
    ++ tx.body.kernels.flatMap TxKernel.write)

def feeToWeight {ε : Type} (checks : Bool) (tx : Transaction) : Outcome ε UInt64 := do
  let scaled ← MachineInt.mul checks tx.fee 1000
  MachineInt.div scaled (UInt64.ofNat tx.txWeight)

-- the source moves what it keeps to the front of the two sorted vectors
def cutMatched (env : Env) (fuel : Nat) (inputs : List Input) (outputs : List Output)
    : List Input × List Output :=
  match fuel, inputs, outputs with
  | fuel + 1, i :: inputs, o :: outputs =>
    if i.hash env < o.hash env then
      let rest := cutMatched env fuel inputs (o :: outputs)
      (i :: rest.1, rest.2)
    else if o.hash env < i.hash env then
      let rest := cutMatched env fuel (i :: inputs) outputs
      (rest.1, o :: rest.2)
    else
      cutMatched env fuel inputs outputs
  | _, inputs, outputs => (inputs, outputs)

def cutThrough (env : Env) (inputs : List Input) (outputs : List Output)
    : Outcome TransactionError (List Input × List Output) := do
  let outputs := sortByHash (·.hash env) outputs
  .require (hasTwins (outputs.map (·.hash env)) = false) .aggregationError
  let inputs := sortByHash (·.hash env) inputs
  return cutMatched env (inputs.length + outputs.length) inputs outputs

def aggregate (env : Env) (txs : List Transaction) : Outcome TransactionError Transaction :=
  match txs with
  | [] => .ok .empty
  | [tx] => .ok tx
  | txs => do
    let (inputs, outputs) ← cutThrough env (txs.flatMap (·.body.inputs)) (txs.flatMap (·.body.outputs))
    let kernels := sortByHash (·.hash env) (txs.flatMap (·.body.kernels))
    let totalKernelOffset ← (sumKernelOffsets env.secp (txs.map (·.offset)) []).mapErr .committed
    return (Transaction.new env inputs outputs kernels).withOffset totalKernelOffset

def without {α : Type} (hash : α → Hash) (l removed : List α) : List α :=
  l.foldl (fun kept a =>
    if (removed.any fun b => hash b = hash a) || (kept.any fun b => hash b = hash a) then
      kept
    else
      kept ++ [a]) []

def deaggregate (env : Env) (mkTx : Transaction) (txs : List Transaction)
    : Outcome TransactionError Transaction := do
  let tx ← aggregate env txs
  let inputs := without (·.hash env) mkTx.body.inputs tx.body.inputs
  let outputs := without (·.hash env) mkTx.body.outputs tx.body.outputs
  let kernels := without (·.hash env) mkTx.body.kernels tx.body.kernels
  let positiveKey := toSecrets env.secp [mkTx.offset]
  let negativeKeys := toSecrets env.secp [tx.offset]
  let totalKernelOffset ←
    if positiveKey.isEmpty && negativeKeys.isEmpty then
      .ok .zero
    else
      .okOr (env.secp.blindSum positiveKey negativeKeys) .secp
  return (Transaction.new env (sortByHash (·.hash env) inputs) (sortByHash (·.hash env) outputs)
    (sortByHash (·.hash env) kernels)).withOffset totalKernelOffset

theorem length_cutMatched_le (env : Env) (fuel : Nat) (inputs : List Input) (outputs : List Output)
    : (cutMatched env fuel inputs outputs).1.length ≤ inputs.length
        ∧
      (cutMatched env fuel inputs outputs).2.length ≤ outputs.length := by
  fun_induction cutMatched env fuel inputs outputs with
  | case1 fuel i inputs o outputs _ rest ih =>
    simp only [rest, List.length_cons] at ih ⊢
    omega
  | case2 fuel i inputs o outputs _ _ rest ih =>
    simp only [rest, List.length_cons] at ih ⊢
    omega
  | case3 fuel i inputs o outputs _ _ ih =>
    simp only [List.length_cons] at ih ⊢
    omega
  | case4 => simp

theorem length_cutThrough_le
    (h : cutThrough env inputs outputs = .ok (inputs', outputs'))
    : inputs'.length ≤ inputs.length ∧ outputs'.length ≤ outputs.length := by
  obtain ⟨-, -, h⟩ := Outcome.bind_eq_ok.mp h
  rw [Outcome.pure_eq_ok, Outcome.ok.injEq] at h
  have hle := length_cutMatched_le env
    ((sortByHash (·.hash env) inputs).length + (sortByHash (·.hash env) outputs).length)
    (sortByHash (·.hash env) inputs) (sortByHash (·.hash env) outputs)
  rw [h] at hle
  simpa using hle

end Transaction

end Epic
