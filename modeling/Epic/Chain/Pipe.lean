import Epic.Chain.Pipe.ValidateHeader
import Epic.Chain.Orphans
import Epic.Chain.TxHashSet

/-!
This module contains the block processing pipeline.
-/

namespace Epic
namespace Pipe

def checkKnownHead (env : Env) (batch : Batch) (header : BlockHeader) : Outcome ErrorKind Unit := do
  let head ← batch.head
  .require (¬ (header.hash env = head.lastBlockH ∨ header.hash env = head.prevBlockH))
    (.unfit "already known in head")

def checkKnownOrphans (env : Env) (orphans : OrphanBlockPool) (header : BlockHeader)
    : Outcome ErrorKind Unit :=
  .require (orphans.contains (header.hash env) = false) (.unfit "already known in orphans")

def checkKnownStore (env : Env) (batch : Batch) (header : BlockHeader) : Outcome ErrorKind Unit :=
  if batch.blockExists (header.hash env) then do
    let head ← batch.head
    if header.height < MachineInt.saturatingSub head.height 50 then
      .err .oldBlock
    else
      .err (.unfit "already known in store")
  else
    .ok ()

def checkKnown (env : Env) (orphans : OrphanBlockPool) (batch : Batch) (block : Block)
    : Outcome ErrorKind Unit := do
  checkKnownHead env batch block.header
  checkKnownOrphans env orphans block.header
  checkKnownStore env batch block.header

def prevHeaderStore (batch : Batch) (header : BlockHeader) : Outcome ErrorKind BlockHeader :=
  .okOr (batch.db.headers.getPreviousHeader header) .orphan

def hasMoreWork (header : BlockHeader) (head : Tip) : Bool :=
  head.totalDifficulty.total < header.totalDifficulty.total

def addBlockHeader (env : Env) (header : BlockHeader) : Routine ChainState ErrorKind Unit :=
  .modify fun st => { st with batch := st.batch.saveBlockHeader env header }

def updateTip (env : Env) (header : BlockHeader) (get : Batch → Outcome ErrorKind Tip)
    (save : Batch → Tip → Batch)
    : Routine ChainState ErrorKind (Option Tip) := do
  let head ← .query fun st => get st.batch
  if hasMoreWork header head then do
    let tip := Tip.fromHeader env header
    .modify fun st => { st with batch := save st.batch tip }
    return some tip
  else
    return none

def updateHeaderHead (env : Env) (header : BlockHeader) : Routine ChainState ErrorKind (Option Tip) :=
  updateTip env header Batch.headerHead Batch.saveHeaderHead

def updateSyncHead (env : Env) (header : BlockHeader) : Routine ChainState ErrorKind Unit :=
  .modify fun st => { st with batch := st.batch.saveSyncHead (.fromHeader env header) }

def updateBodyTail (env : Env) (header : BlockHeader) : Routine ChainState ErrorKind Unit :=
  .modify fun st =>
    if st.batch.db.tail.isNone then
      { st with batch := st.batch.saveBodyTail (.fromHeader env header) }
    else
      st

def updateHead (env : Env) (b : Block) : Routine ChainState ErrorKind (Option Tip) :=
  updateTip env b.header Batch.head Batch.saveBodyHead

def validateHeaderIn (env : Env) (ctx : Ctx) (header : BlockHeader)
    : Routine ChainState ErrorKind Unit :=
  .query fun st => validateHeader env ctx st.batch.db.headers header

def applyForkHeader (env : Env) (h : Hash) : Routine HeaderExtension ErrorKind Unit := do
  let header ← .query fun ext =>
    .okOr (ext.batch.db.headers.getBlockHeader h)
      (.storeErr (.notFoundErr "BLOCK HEADER: " h.bytes) "getting forked headers")
  let _ ← HeaderExtension.applyHeader env header

def rewindAndApplyHeaderFork (env : Env) (header : BlockHeader)
    : Routine HeaderExtension ErrorKind Unit := do
  let (forkedHeader, forkHashes) ← .query fun ext => forkPoint env ext.pmmr ext.batch header
  HeaderExtension.rewind forkedHeader
  .forEach forkHashes (applyForkHeader env)

def extendHeader (env : Env) (header : BlockHeader) (isFork : Bool)
    : Routine HeaderExtension ErrorKind Unit := do
  HeaderExtension.forceRollback
  .onlyIf isFork (rewindAndApplyHeaderFork env header)
  HeaderExtension.validateRoot env header
  let _ ← HeaderExtension.applyHeader env header

def processHeaderForBlock (env : Env) (ctx : Ctx) (header : BlockHeader) (isFork : Bool)
    : Routine ChainState ErrorKind Unit := do
  headerExtending (extendHeader env header isFork)
  validateHeaderIn env ctx header
  addBlockHeader env header
  let _ ← updateHeaderHead env header

def validateBlock (env : Env) (block : Block) : Routine ChainState ErrorKind Unit :=
  .query fun st => do
    let prev ← st.batch.getPreviousHeader block.header
    let _ ← (block.validate env prev.totalKernelOffset).mapErr .invalidBlockProof

def verifyCoinbaseMaturity (env : Env) (block : Block) : Routine Extension ErrorKind Unit :=
  .query fun ext =>
    UTXOView.verifyCoinbaseMaturity env ext.headerPmmr ext.batch block.body.inputs block.header.height

def validateUtxo (env : Env) (block : Block) : Routine Extension ErrorKind Unit :=
  .query fun ext => UTXOView.validateBlock env ext.outputPmmr ext.batch block

def newBlockSums (env : Env) (batch : Batch) (b : Block) : Outcome ErrorKind BlockSums := do
  let prev ← batch.getPreviousHeader b.header
  let blockSums ← batch.getBlockSums (prev.hash env)
  let overage ← Consensus.overageAtHeight env b.header.height
  let (utxoSum, kernelSum) ←
    ((blockSums.committed b.body.committed).verifyKernelSums env.secp overage
      b.header.totalKernelOffset).mapErr .committed
  return ⟨utxoSum, kernelSum⟩

def verifyBlockSums (env : Env) (b : Block) : Routine Extension ErrorKind Unit := do
  let sums ← .query fun ext => newBlockSums env ext.batch b
  .modify fun ext => { ext with batch := ext.batch.saveBlockSums (b.header.hash env) sums }

def applyBlockToTxhashset (env : Env) (block : Block) : Routine Extension ErrorKind Unit := do
  Extension.validateHeaderRoot env block.header
  Extension.applyBlock env block
  Extension.validateRoots env
  Extension.validateSizes

-- what a block has to pass in the extension, when it is new as well as when its fork is reapplied
def applyInExtension (env : Env) (b : Block) : Routine Extension ErrorKind Unit := do
  verifyCoinbaseMaturity env b
  validateUtxo env b
  verifyBlockSums env b
  applyBlockToTxhashset env b

def applyForkBlock (env : Env) (h : Hash) : Routine Extension ErrorKind Unit := do
  let fb ← .query fun ext =>
    .okOr (ext.batch.getBlock h)
      (.storeErr (.notFoundErr "Block with hash: " h.bytes) "getting forked blocks")
  applyInExtension env fb

def rewindAndApplyFork (env : Env) (b : Block) : Routine Extension ErrorKind Unit := do
  let (forkedHeader, forkHashes) ← .query fun ext => forkPoint env ext.headerPmmr ext.batch b.header
  Extension.rewind env forkedHeader
  .forEach forkHashes (applyForkBlock env)

-- a block that does not increase the work on the chain is checked, but not kept
def rollbackIfLessWork (b : Block) : Routine Extension ErrorKind Unit := do
  let head ← .query fun ext => ext.batch.head
  .onlyIf (!hasMoreWork b.header head) Extension.forceRollback

def extendBlock (env : Env) (b : Block) (isFork : Bool) : Routine Extension ErrorKind Unit := do
  .onlyIf isFork (rewindAndApplyFork env b)
  applyInExtension env b
  rollbackIfLessWork b

def addBlock (env : Env) (b : Block) : Routine ChainState ErrorKind Unit :=
  .modify fun st => { st with batch := st.batch.saveBlock env b }

-- whether the block is a fork, unless it is an orphan
def checkOrphan (env : Env) (batch : Batch) (b : Block) : Outcome ErrorKind Bool := do
  let head ← batch.head
  let isNext := decide (b.header.prevHash = head.lastBlockH)
  let prev ← prevHeaderStore batch b.header
  .require (isNext = true ∨ batch.blockExists (prev.hash env) = true) .orphan
  return !isNext

def processBlock (env : Env) (ctx : Ctx) (orphans : OrphanBlockPool) (b : Block)
    : Routine ChainState ErrorKind (Option Tip) := do
  .query fun st => checkKnown env orphans st.batch b
  let isFork ← .query fun st => checkOrphan env st.batch b
  processHeaderForBlock env ctx b.header isFork
  validateBlock env b
  extending (extendBlock env b isFork)
  addBlock env b
  updateBodyTail env b.header
  updateHead env b

def syncHeader (env : Env) (header : BlockHeader) : Routine HeaderExtension ErrorKind Unit := do
  HeaderExtension.validateRoot env header
  let _ ← HeaderExtension.applyHeader env header
  .modify fun ext => { ext with batch := ext.batch.saveBlockHeader env header }

def extendSync (env : Env) (prevHeader : BlockHeader) (headers : List BlockHeader)
    : Routine HeaderExtension ErrorKind Unit := do
  HeaderExtension.rewind prevHeader
  .forEach headers (syncHeader env)

def syncNewHeaders (env : Env) (ctx : Ctx) (first : BlockHeader) (headers : List BlockHeader)
    : Routine ChainState ErrorKind Unit := do
  let prevHeader ← .query fun st => st.batch.getPreviousHeader first
  syncExtending (extendSync env prevHeader headers)
  .forEach headers (validateHeaderIn env ctx)

def allKnown (env : Env) (batch : Batch) (last : BlockHeader) : Bool :=
  (batch.db.headers.getBlockHeader (last.hash env)).isSome

def syncBlockHeaders (env : Env) (ctx : Ctx) (headers : List BlockHeader)
    : Routine ChainState ErrorKind (Option Tip) :=
  match headers.head?, headers.getLast? with
  | some first, some last => do
    .forEach headers fun header => .lift (checkBadHeader env header)
    let known ← .gets fun st => allKnown env st.batch last
    .onlyIf (!known) (syncNewHeaders env ctx first headers)
    updateSyncHead env last
    updateHeaderHead env last
  | _, _ => pure none

end Pipe
end Epic
