import Epic.Chain.Pipe

/-!
This module contains the facade of the chain: it starts a batch for each block or list of headers,
runs the pipeline, and commits the batch if the pipeline succeeds.
-/

namespace Epic

structure Chain where
  store : ChainStore
  orphans : OrphanBlockPool
  txhashset : TxHashSet
  powVerifier : BlockHeader → Bool
  archiveMode : Bool
  genesis : BlockHeader

-- the time of day in nanoseconds and the monotonic clock in seconds
structure Clock where
  utc : Int
  instant : Nat

namespace Chain

def state (c : Chain) : ChainState := ⟨c.txhashset, c.store.batch⟩

def newCtx (c : Chain) (clock : Clock) (opts : Options) : Pipe.Ctx := ⟨opts, c.powVerifier, clock.utc⟩

-- the batch is committed on success and dropped otherwise
def commit (c : Chain) (st : ChainState) : Chain :=
  { c with store := st.batch.db, txhashset := st.trees }

def drop (c : Chain) (st : ChainState) : Chain := { c with txhashset := st.trees }

def rejectBlock (env : Env) (clock : Clock) (c : Chain) (b : Block) (opts : Options) (e : ErrorKind)
    : Outcome ErrorKind (Option Tip) × Chain :=
  match e with
  | .orphan =>
    (.err .orphan, { c with orphans := c.orphans.add env clock.instant ⟨b, opts, clock.instant⟩ })
  | .unfit msg => (.err (.unfit msg), c)
  | e => (.err (.other e), c)

def processBlockSingle (env : Env) (clock : Clock) (c : Chain) (b : Block) (opts : Options)
    : Outcome ErrorKind (Option Tip) × Chain :=
  match c.store.batch.head with
  | .ok _ =>
    match Pipe.processBlock env (c.newCtx clock opts) c.orphans b c.state with
    | (.ok head, st) => (.ok head, c.commit st)
    | (.err e, st) => rejectBlock env clock (c.drop st) b opts e
    | (.panic, st) => (.panic, c.drop st)
    | (.hang, st) => (.hang, c.drop st)
  | .err e => (.err e, c)
  | .panic => (.panic, c)
  | .hang => (.hang, c)

-- the height of the last orphan that was accepted
def processOrphans (env : Env) (clock : Clock) (orphans : List Orphan) (accepted : Option UInt64)
    : Routine Chain ErrorKind (Option UInt64) :=
  match orphans with
  | [] => pure accepted
  | orphan :: orphans => fun c =>
    match processBlockSingle env clock c orphan.block orphan.opts with
    | (.ok _, c) => processOrphans env clock orphans (some orphan.block.header.height) c
    | (.err _, c) => processOrphans env clock orphans accepted c
    | (.panic, c) => (.panic, c)
    | (.hang, c) => (.hang, c)

def takeOrphans (height : UInt64) : Routine Chain ErrorKind (List Orphan) := fun c =>
  let (orphans, pool) := c.orphans.removeByHeight height
  (.ok (orphans.getD []), { c with orphans := pool })

-- Each round but the last accepts an orphan of the pool, so there are no more rounds than orphans.
def checkOrphans (env : Env) (clock : Clock) (fuel : Nat) (height : UInt64)
    : Routine Chain ErrorKind Unit :=
  match fuel with
  | 0 => .lift .hang
  | fuel + 1 => do
    let orphans ← takeOrphans height
    let accepted ← processOrphans env clock orphans none
    match accepted with
    | some height => do
      let next ← .lift (MachineInt.add env.overflowChecks height 1)
      checkOrphans env clock fuel next
    | none => pure ()

def checkOrphansAfter (env : Env) (clock : Clock) (height : UInt64)
    : Routine Chain ErrorKind Unit := do
  let next ← .lift (MachineInt.add env.overflowChecks height 1)
  let len ← .gets fun c => c.orphans.len
  checkOrphans env clock (len + 1) next

def processBlock (env : Env) (clock : Clock) (c : Chain) (b : Block) (opts : Options)
    : Outcome ErrorKind (Option Tip) × Chain :=
  match processBlockSingle env clock c b opts with
  | (.ok head, c) => (checkOrphansAfter env clock b.header.height >>= fun _ => pure head) c
  | res => res

def syncBlockHeaders (env : Env) (clock : Clock) (c : Chain) (headers : List BlockHeader)
    (opts : Options)
    : Outcome ErrorKind Unit × Chain :=
  match Pipe.syncBlockHeaders env (c.newCtx clock opts) headers c.state with
  | (.ok _, st) => (.ok (), c.commit st)
  | (.err e, st) => (.err e, c.drop st)
  | (.panic, st) => (.panic, c.drop st)
  | (.hang, st) => (.hang, c.drop st)

def resetSyncHead (c : Chain) : Outcome ErrorKind Tip × Chain :=
  match c.store.batch.headerHead with
  | .ok head => (.ok head, { c with store := (c.store.batch.saveSyncHead head).db })
  | .err e => (.err e, c)
  | .panic => (.panic, c)
  | .hang => (.hang, c)

def rebuildSyncMmr (env : Env) (c : Chain) (head : Tip) : Outcome ErrorKind Unit × Chain :=
  match syncExtending (HeaderExtension.rebuild env head c.genesis) c.state with
  | (.ok _, st) => (.ok (), c.commit st)
  | (.err e, st) => (.err e, c.drop st)
  | (.panic, st) => (.panic, c.drop st)
  | (.hang, st) => (.hang, c.drop st)

def genesisSums (env : Env) (genesis : Block) : Outcome ErrorKind BlockSums :=
  let sums : BlockSums := ⟨commitToZeroValue, commitToZeroValue⟩
  if genesis.body.kernels.length > 0 then do
    let overage ← Consensus.overageAtHeight env genesis.header.height
    let (utxoSum, kernelSum) ←
      ((sums.committed genesis.body.committed).verifyKernelSums env.secp overage
        genesis.header.totalKernelOffset).mapErr .committed
    return ⟨utxoSum, kernelSum⟩
  else
    .ok sums

def applyGenesis (env : Env) (genesis : Block) : Routine Extension ErrorKind Unit := do
  Extension.applyBlock env genesis
  Extension.validateRoots env
  Extension.validateSizes

-- setup_head on an empty store
def setupHead (env : Env) (genesis : Block) : Routine ChainState ErrorKind Unit := do
  let tip := Tip.fromHeader env genesis.header
  .modify fun st => { st with
    batch := ((st.batch.saveBlockHeader env genesis.header).saveBlock env genesis).saveHead tip }
  let sums ← .lift (genesisSums env genesis)
  extending (applyGenesis env genesis)
  .modify fun st => { st with
    batch := (st.batch.saveBlockSums (genesis.hash env) sums).saveSyncHead tip }

def init (env : Env) (powVerifier : BlockHeader → Bool) (archiveMode : Bool) (genesis : Block)
    : Outcome ErrorKind Chain :=
  match setupHead env genesis ⟨.new, ChainStore.new.batch⟩ with
  | (.ok _, st) => .ok ⟨st.batch.db, .new, st.trees, powVerifier, archiveMode, genesis.header⟩
  | (.err e, _) => .err e
  | (.panic, _) => .panic
  | (.hang, _) => .hang

def getHeaderHashByHeight (trees : TxHashSet) (height : UInt64) : Outcome ErrorKind Hash :=
  .okOr (getHeaderHash trees.headerPmmr (Pmmr.insertionToPmmrIndex (height.toNat + 1)))
    (.otherMsg "get header hash by height")

def compactTxHashSet (env : Env) : Routine ChainState ErrorKind Unit := do
  let headHeader ← .query fun st => st.batch.headHeader
  let horizonHeight := MachineInt.saturatingSub headHeader.height (Global.cutThroughHorizon env.chainType)
  let horizonHash ← .query fun st => getHeaderHashByHeight st.trees horizonHeight
  let horizonHeader ← .query fun st => st.batch.getBlockHeader horizonHash
  let rewindRmPos ← .zoom (·.batch) (fun batch st => { st with batch := batch })
    (inputPosToRewind env horizonHeader headHeader)
  let cutoff := horizonHeader.outputMmrSize.toNat
  .modify fun st => { st with trees := { st.trees with
    outputPmmr := { st.trees.outputPmmr with
      backend := st.trees.outputPmmr.backend.checkCompact cutoff rewindRmPos }
    rproofPmmr := { st.trees.rproofPmmr with
      backend := st.trees.rproofPmmr.backend.checkCompact cutoff rewindRmPos } } }

-- the blocks are iterated over as they were committed
def removeHistoricalBlocks (env : Env) : Routine ChainState ErrorKind Unit := do
  let horizon := Global.cutThroughHorizon env.chainType
  let head ← .query fun st => st.batch.head
  .onlyIf (MachineInt.saturatingSub head.height horizon ≠ 0) do
    let tailHash ← .query fun st => getHeaderHashByHeight st.trees (head.height - horizon)
    let tail ← .query fun st => st.batch.getBlockHeader tailHash
    .modify fun st =>
      let old := st.batch.committed.blocks.entries.filter fun e => e.2.header.height < tail.height
      let batch := old.foldl (fun batch e => batch.deleteBlock (e.2.hash env)) st.batch
      { st with batch := batch.saveBodyTail (.fromHeader env tail) }

-- compaction is skipped unless the head is 60 blocks beyond the horizon above the tail
def skipsCompaction (env : Env) (c : Chain) : Bool :=
  match c.store.tail, c.store.head with
  | some tail, some head =>
    let threshold := MachineInt.saturatingAdd (Global.cutThroughHorizon env.chainType) 60
    decide (MachineInt.saturatingAdd tail.height threshold > head.height)
  | _, _ => false

def compactState (env : Env) (archiveMode : Bool) : Routine ChainState ErrorKind Unit := do
  compactTxHashSet env
  extending Extension.rebuildIndex
  .onlyIf (!archiveMode) (removeHistoricalBlocks env)

def compact (env : Env) (c : Chain) : Outcome ErrorKind Unit × Chain :=
  if c.skipsCompaction env then
    (.ok (), c)
  else
    match compactState env c.archiveMode c.state with
    | (.ok _, st) => (.ok (), c.commit st)
    | (.err e, st) => (.err e, c.drop st)
    | (.panic, st) => (.panic, c.drop st)
    | (.hang, st) => (.hang, c.drop st)

end Chain

end Epic
