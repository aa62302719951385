import Epic.Core.Block.Feijoada
import Epic.Core.Pmmr
import Epic.Core.Transaction.Aggregate

/-!
This module contains how a block is assembled: the transactions are aggregated, the coinbases are added,
and the header is set up on top of that of the previous block.
-/

namespace Epic

open MachineInt

def Proof.zero (ct : ChainTypes) (proofSize : Nat) : Proof :=
  .cuckoo (Global.minEdgeBits ct) (.replicate proofSize 0)

def ProofOfWork.default (ct : ChainTypes) : ProofOfWork where
  totalDifficulty := .fromNum 1
  secondaryScaling := 1
  nonce := 0
  proof := .zero ct (Global.proofsize ct)
  seed := .replicate 32 0

def BlockHeader.default (ct : ChainTypes) : BlockHeader where
  version := Global.currentHeaderVersion
  height := 0
  timestamp := .epoch
  prevHash := zeroHash
  prevRoot := zeroHash
  outputRoot := zeroHash
  rangeProofRoot := zeroHash
  kernelRoot := zeroHash
  totalKernelOffset := .zero
  outputMmrSize := 0
  kernelMmrSize := 0
  pow := .default ct
  policy := 0
  bottles := Feijoada.getBottlesDefault

namespace Block

def cutThrough (env : Env) (b : Block) : Outcome BlockError Block := do
  let (inputs, outputs) ←
    (Transaction.cutThrough env b.body.inputs b.body.outputs).mapErr .transaction
  let body ← (TransactionBody.init env inputs outputs b.body.kernels false).mapErr .transaction
  return ⟨b.header, body⟩

-- what from_reward and from_coinbases make of the transactions with the coinbases added
def fromAggregate (env : Env) (now : DateTime) (prev : BlockHeader) (aggTx : Transaction)
    (difficulty : Difficulty)
    : Outcome BlockError Block := do
  let totalKernelOffset ←
    (sumKernelOffsets env.secp [aggTx.offset, prev.totalKernelOffset] []).mapErr .committed
  let height ← add env.overflowChecks prev.height 1
  let totalDifficulty ← difficulty.add env.overflowChecks prev.pow.totalDifficulty
  let header := { BlockHeader.default env.chainType with
    height := height
    timestamp := now.truncSubsecs
    prevHash := prev.hash env
    totalKernelOffset := totalKernelOffset
    pow := { ProofOfWork.default env.chainType with totalDifficulty := totalDifficulty } }
  cutThrough env ⟨header, aggTx.body⟩

def fromReward (env : Env) (now : DateTime) (prev : BlockHeader) (txs : List Transaction)
    (rewardOut : Output) (rewardKern : TxKernel) (difficulty : Difficulty)
    : Outcome BlockError Block := do
  let aggTx ← (Transaction.aggregate env txs).mapErr .transaction
  let aggTx := (aggTx.withOutput env rewardOut).withKernel env rewardKern
  fromAggregate env now prev aggTx difficulty

def fromCoinbases (env : Env) (now : DateTime) (prev : BlockHeader) (txs : List Transaction)
    (reward foundation : Output × TxKernel) (difficulty : Difficulty)
    : Outcome BlockError Block := do
  let aggTx ← (Transaction.aggregate env txs).mapErr .transaction
  let aggTx := (aggTx.withOutput env reward.1).withKernel env reward.2
  let aggTx := (aggTx.withOutput env foundation.1).withKernel env foundation.2
  fromAggregate env now prev aggTx difficulty

structure Extends (env : Env) (prev : BlockHeader) (difficulty : Difficulty) (header : BlockHeader)
    : Prop where
  version : header.version = Global.currentHeaderVersion
  height : (add env.overflowChecks prev.height 1 : Outcome BlockError UInt64) = .ok header.height
  prevHash : header.prevHash = prev.hash env
  totalDifficulty : (difficulty.add env.overflowChecks prev.pow.totalDifficulty
    : Outcome BlockError Difficulty) = .ok header.pow.totalDifficulty

variable {env : Env} {now : DateTime} {prev : BlockHeader} {difficulty : Difficulty} {b : Block}

theorem fromAggregate_eq_ok
    (h : fromAggregate env now prev aggTx difficulty = .ok b)
    : Extends env prev difficulty b.header
        ∧
      ∃ inputs outputs,
        Transaction.cutThrough env aggTx.body.inputs aggTx.body.outputs = .ok (inputs, outputs)
          ∧
        b.body = (⟨inputs, outputs, aggTx.body.kernels⟩ : TransactionBody).sort env := by
  unfold fromAggregate cutThrough at h
  simp only [Outcome.bind_eq_ok, Outcome.mapErr_eq_ok] at h
  obtain ⟨offset, -, height, hheight, total, htotal, ⟨inputs, outputs⟩, hcut, body, hbody, h⟩ := h
  rw [Outcome.pure_eq_ok, Outcome.ok.injEq] at h
  obtain rfl : body = _ := (Outcome.ok.inj hbody).symm
  subst h
  exact ⟨⟨rfl, hheight, rfl, htotal⟩, inputs, outputs, hcut, rfl⟩

theorem extends_fromReward
    (h : fromReward env now prev txs rewardOut rewardKern difficulty = .ok b)
    : Extends env prev difficulty b.header := by
  obtain ⟨aggTx, -, h⟩ := Outcome.bind_eq_ok.mp h
  exact (fromAggregate_eq_ok h).1

theorem extends_fromCoinbases
    (h : fromCoinbases env now prev txs reward foundation difficulty = .ok b)
    : Extends env prev difficulty b.header := by
  obtain ⟨aggTx, -, h⟩ := Outcome.bind_eq_ok.mp h
  exact (fromAggregate_eq_ok h).1

end Block
end Epic
