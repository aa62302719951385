import Epic.Chain.Store

/-!
This module contains the Merkle mountain ranges of the chain state and the extensions: units of work
that extend or rewind them, and are then either written or discarded.
-/

namespace Epic

open Pmmr

structure TxHashSet where
  headerPmmr : PMMR HeaderEntry
  syncPmmr : PMMR HeaderEntry
  outputPmmr : PMMR OutputIdentifier
  rproofPmmr : PMMR RangeProof
  kernelPmmr : PMMR TxKernel
deriving DecidableEq

def TxHashSet.new : TxHashSet := ⟨.new false, .new false, .new true, .new true, .new false⟩

-- open on a directory with files
def TxHashSet.reopen (t : TxHashSet) : TxHashSet where
  headerPmmr := t.headerPmmr.reopen
  syncPmmr := t.syncPmmr.reopen
  outputPmmr := t.outputPmmr.reopen
  rproofPmmr := t.rproofPmmr.reopen
  kernelPmmr := t.kernelPmmr.reopen

def getHeaderHash (pmmr : PMMR HeaderEntry) (pos : Nat) : Option Hash := (pmmr.getData pos).map (·.hash)

def getHeaderByHeight (pmmr : PMMR HeaderEntry) (batch : Batch) (height : UInt64)
    : Outcome ErrorKind BlockHeader := do
  let hash ← .okOr (getHeaderHash pmmr (insertionToPmmrIndex (height.toNat + 1)))
    (.otherMsg "get header by height")
  batch.getBlockHeader hash

def isOnCurrentChain (env : Env) (pmmr : PMMR HeaderEntry) (batch : Batch) (header : BlockHeader)
    : Outcome ErrorKind Unit := do
  let chainHeader ← getHeaderByHeight pmmr batch header.height
  .require (chainHeader.hash env = header.hash env) (.otherMsg "not on current chain")

-- The hashes of a header and its ancestors, oldest first, down to the first one that is on the current
-- chain, and that one. A walk that takes more steps than there are headers never ends.
def forkHashes (env : Env) (pmmr : PMMR HeaderEntry) (batch : Batch) (fuel : Nat)
    (current : BlockHeader) (hashes : List Hash)
    : Outcome ErrorKind (BlockHeader × List Hash) :=
  match fuel with
  | 0 => .hang
  | fuel + 1 =>
    if current.height > 0 ∧ (isOnCurrentChain env pmmr batch current).isOk = false then do
      let prev ← batch.getPreviousHeader current
      forkHashes env pmmr batch fuel prev (current.hash env :: hashes)
    else
      .ok (current, hashes)

def forkPoint (env : Env) (pmmr : PMMR HeaderEntry) (batch : Batch) (header : BlockHeader)
    : Outcome ErrorKind (BlockHeader × List Hash) := do
  let current ← batch.getPreviousHeader header
  forkHashes env pmmr batch (batch.db.headers.entries.length + 1) current []

structure HeaderExtension where
  header : BlockHeader
  pmmr : PMMR HeaderEntry
  rollback : Bool
  batch : Batch

namespace HeaderExtension

def forceRollback : Routine HeaderExtension ErrorKind Unit :=
  .modify fun ext => { ext with rollback := true }

def root (env : Env) : Routine HeaderExtension ErrorKind Hash := .query fun ext => ext.pmmr.root env

def applyHeader (env : Env) (header : BlockHeader) : Routine HeaderExtension ErrorKind Hash := do
  let _ ← .mapErr .txHashSetErr
    (.zoom (·.pmmr) (fun pmmr ext => { ext with pmmr := pmmr }) (PMMR.push env header))
  .modify fun ext => { ext with header := header }
  root env

def rewind (header : BlockHeader) : Routine HeaderExtension ErrorKind Unit :=
  let headerPos := insertionToPmmrIndex (header.height.toNat + 1)
  .modify fun ext => { ext with pmmr := ext.pmmr.rewind headerPos ∅, header := header }

def validateRoot (env : Env) (header : BlockHeader) : Routine HeaderExtension ErrorKind Unit :=
  if header.height = 0 then
    pure ()
  else do
    let root ← root env
    .lift (.require (root = header.prevRoot) .invalidRoot)

def truncate : Routine HeaderExtension ErrorKind Unit :=
  .modify fun ext => { ext with pmmr := ext.pmmr.truncate }

def size (ext : HeaderExtension) : Nat := ext.pmmr.unprunedSize

-- The hashes of a header and its ancestors above height 0, oldest first. A walk that takes more steps
-- than there are headers never ends.
def headerHashes (env : Env) (batch : Batch) (fuel : Nat) (current : BlockHeader) (hashes : List Hash)
    : Outcome ErrorKind (List Hash) :=
  match fuel with
  | 0 => .hang
  | fuel + 1 =>
    if current.height > 0 then do
      let prev ← batch.getPreviousHeader current
      headerHashes env batch fuel prev (current.hash env :: hashes)
    else
      .ok hashes

def reapplyHeader (env : Env) (h : Hash) : Routine HeaderExtension ErrorKind Unit := do
  let header ← .query fun ext => ext.batch.getBlockHeader h
  validateRoot env header
  let _ ← applyHeader env header

def rebuild (env : Env) (head : Tip) (genesis : BlockHeader)
    : Routine HeaderExtension ErrorKind Unit := do
  let hashes ← .query fun ext => do
    let current ← ext.batch.getBlockHeader head.lastBlockH
    headerHashes env ext.batch (ext.batch.db.headers.entries.length + 1) current []
  truncate
  let _ ← applyHeader env genesis
  .forEach hashes (reapplyHeader env)

end HeaderExtension

structure Extension where
  header : BlockHeader
  headerPmmr : PMMR HeaderEntry
  outputPmmr : PMMR OutputIdentifier
  rproofPmmr : PMMR RangeProof
  kernelPmmr : PMMR TxKernel
  rollback : Bool
  batch : Batch

namespace UTXOView

def validateInput (env : Env) (outputPmmr : PMMR OutputIdentifier) (batch : Batch) (input : Input)
    : Outcome ErrorKind Unit :=
  match batch.getOutputPos input.commit with
  | some pos =>
    .require (outputPmmr.getHash pos = some (hashWithIndex env input.write (pos - 1)))
      (.alreadySpent input.commit)
  | none => .err (.alreadySpent input.commit)

def validateOutput (outputPmmr : PMMR OutputIdentifier) (batch : Batch) (output : Output)
    : Outcome ErrorKind Unit :=
  match batch.getOutputPos output.commit with
  | some pos =>
    .require ((outputPmmr.getData pos).map (·.commit) ≠ some output.commit)
      (.duplicateCommitment output.commit)
  | none => .ok ()

def validateOutputs (outputPmmr : PMMR OutputIdentifier) (batch : Batch) (outputs : List Output)
    : Outcome ErrorKind Unit :=
  match outputs with
  | [] => .ok ()
  | output :: outputs => do
    validateOutput outputPmmr batch output
    validateOutputs outputPmmr batch outputs

def validateInputs (env : Env) (outputPmmr : PMMR OutputIdentifier) (batch : Batch)
    (inputs : List Input)
    : Outcome ErrorKind Unit :=
  match inputs with
  | [] => .ok ()
  | input :: inputs => do
    validateInput env outputPmmr batch input
    validateInputs env outputPmmr batch inputs

def validateBlock (env : Env) (outputPmmr : PMMR OutputIdentifier) (batch : Batch) (block : Block)
    : Outcome ErrorKind Unit := do
  validateOutputs outputPmmr batch block.body.outputs
  validateInputs env outputPmmr batch block.body.inputs

def verifyCoinbaseMaturity (env : Env) (headerPmmr : PMMR HeaderEntry) (batch : Batch)
    (inputs : List Input) (height : UInt64)
    : Outcome ErrorKind Unit :=
  let coinbase := inputs.filter (·.features == .coinbase)
  let pos := (coinbase.filterMap fun x => batch.getOutputPos x.commit).foldl max 0
  let maturity := Global.coinbaseMaturity env.chainType
  if pos > 0 then do
    .require (¬ height < maturity) .immatureCoinbase
    let cutoffHeader ← getHeaderByHeight headerPmmr batch (height - maturity)
    .require (¬ pos > cutoffHeader.outputMmrSize.toNat) .immatureCoinbase
  else
    .ok ()

end UTXOView

def blockInputBitmap (env : Env) (bh : Hash) : Routine Batch ErrorKind (Option Bitmap) := fun batch =>
  (.ok (batch.getBlockInputBitmap env bh).1, (batch.getBlockInputBitmap env bh).2)

-- The union of the input bitmaps of the blocks from head down to the given one, without it. A walk
-- that takes more steps than there are headers never ends.
def inputPosToRewind.go (env : Env) (blockHeader : BlockHeader) (fuel : Nat) (current : BlockHeader)
    (bitmap : Bitmap)
    : Routine Batch ErrorKind Bitmap :=
  match fuel with
  | 0 => .lift .hang
  | fuel + 1 =>
    if current.hash env = blockHeader.hash env ∨ current.height < 1 then
      pure bitmap
    else do
      let input ← blockInputBitmap env (current.hash env)
      let prev ← .query fun batch => batch.getPreviousHeader current
      go env blockHeader fuel prev (bitmap ∪ input.getD ∅)

def inputPosToRewind (env : Env) (blockHeader headHeader : BlockHeader)
    : Routine Batch ErrorKind Bitmap := fun batch =>
  if headHeader.height < blockHeader.height then
    (.ok ∅, batch)
  else
    inputPosToRewind.go env blockHeader (batch.db.headers.entries.length + 2) headHeader ∅ batch

namespace Extension

def forceRollback : Routine Extension ErrorKind Unit :=
  .modify fun ext => { ext with rollback := true }

def onBatch {α : Type} (x : Routine Batch ErrorKind α) : Routine Extension ErrorKind α :=
  .zoom (·.batch) (fun batch ext => { ext with batch := batch }) x

def onHeader {α : Type} (x : Routine (PMMR HeaderEntry) String α) : Routine Extension ErrorKind α :=
  .mapErr .txHashSetErr (.zoom (·.headerPmmr) (fun p ext => { ext with headerPmmr := p }) x)

def onOutput {α : Type} (x : Routine (PMMR OutputIdentifier) String α)
    : Routine Extension ErrorKind α :=
  .mapErr .txHashSetErr (.zoom (·.outputPmmr) (fun p ext => { ext with outputPmmr := p }) x)

def onRproof {α : Type} (x : Routine (PMMR RangeProof) String α) : Routine Extension ErrorKind α :=
  .mapErr .txHashSetErr (.zoom (·.rproofPmmr) (fun p ext => { ext with rproofPmmr := p }) x)

def onKernel {α : Type} (x : Routine (PMMR TxKernel) String α) : Routine Extension ErrorKind α :=
  .mapErr .txHashSetErr (.zoom (·.kernelPmmr) (fun p ext => { ext with kernelPmmr := p }) x)

def applyHeader (env : Env) (header : BlockHeader) : Routine Extension ErrorKind Unit := do
  let _ ← onHeader (PMMR.push env header)

def checkNotDuplicate (out : Output) : Routine Extension ErrorKind Unit :=
  .query fun ext => UTXOView.validateOutput ext.outputPmmr ext.batch out

def applyOutput (env : Env) (out : Output) : Routine Extension ErrorKind Nat := do
  checkNotDuplicate out
  let outputPos ← onOutput (PMMR.push env out)
  let rproofPos ← onRproof (PMMR.push env out.proof)
  let sizes ← .gets fun ext => (ext.outputPmmr.unprunedSize, ext.rproofPmmr.unprunedSize)
  .lift (.require (sizes.1 = sizes.2) (.otherMsg "output vs rproof MMRs different sizes"))
  .lift (.require (outputPos = rproofPos) (.otherMsg "output vs rproof MMRs different pos"))
  return outputPos

def checkHash (env : Env) (input : Input) (pos : Nat) : Routine Extension ErrorKind Unit :=
  .query fun ext =>
    match ext.outputPmmr.getHash pos with
    | some hash =>
      .require (hash = hashWithIndex env input.write (pos - 1))
        (.txHashSetErr "output pmmr hash mismatch")
    | none => .ok ()

def applyInput (env : Env) (input : Input) : Routine Extension ErrorKind Unit := do
  let pos ← .query fun ext => .okOr (ext.batch.getOutputPos input.commit) (.alreadySpent input.commit)
  checkHash env input pos
  let pruned ← onOutput (PMMR.prune pos)
  .lift (.require (pruned = true) (.alreadySpent input.commit))
  let _ ← onRproof (PMMR.prune pos)

def applyKernel (env : Env) (kernel : TxKernel) : Routine Extension ErrorKind Unit := do
  let _ ← onKernel (PMMR.push env kernel)

def applyAndIndexOutput (env : Env) (out : Output) : Routine Extension ErrorKind Unit := do
  let pos ← applyOutput env out
  .modify fun ext => { ext with batch := ext.batch.saveOutputPos out.commit pos }

def applyBlock (env : Env) (b : Block) : Routine Extension ErrorKind Unit := do
  applyHeader env b.header
  .forEach b.body.outputs (applyAndIndexOutput env)
  .forEach b.body.inputs (applyInput env)
  .forEach b.body.kernels (applyKernel env)
  .modify fun ext => { ext with header := b.header }

def rewindToPos (headerPos outputPos kernelPos : Nat) (rewindRmPos : Bitmap)
    : Routine Extension ErrorKind Unit :=
  .modify fun ext => { ext with
    headerPmmr := ext.headerPmmr.rewind headerPos ∅
    outputPmmr := ext.outputPmmr.rewind outputPos rewindRmPos
    rproofPmmr := ext.rproofPmmr.rewind outputPos rewindRmPos
    kernelPmmr := ext.kernelPmmr.rewind kernelPos ∅ }

def rewind (env : Env) (header : BlockHeader) : Routine Extension ErrorKind Unit := do
  let head ← .gets (·.header)
  let rewindRmPos ← onBatch (inputPosToRewind env header head)
  let headerPos := insertionToPmmrIndex (header.height.toNat + 1)
  rewindToPos headerPos header.outputMmrSize.toNat header.kernelMmrSize.toNat rewindRmPos
  .modify fun ext => { ext with header := header }

def validateRoots (env : Env) : Routine Extension ErrorKind Unit := .query fun ext =>
  if ext.header.height = 0 then
    .ok ()
  else do
    let _ ← ext.headerPmmr.root env
    let outputRoot ← ext.outputPmmr.root env
    let rproofRoot ← ext.rproofPmmr.root env
    let kernelRoot ← ext.kernelPmmr.root env
    .require (outputRoot = ext.header.outputRoot ∧ rproofRoot = ext.header.rangeProofRoot
      ∧ kernelRoot = ext.header.kernelRoot) .invalidRoot

def validateHeaderRoot (env : Env) (header : BlockHeader) : Routine Extension ErrorKind Unit :=
  .query fun ext =>
    if header.height = 0 then
      .ok ()
    else do
      let headerRoot ← ext.headerPmmr.root env
      let _ ← (ext.outputPmmr.root env : Outcome ErrorKind Hash)
      let _ ← (ext.rproofPmmr.root env : Outcome ErrorKind Hash)
      let _ ← (ext.kernelPmmr.root env : Outcome ErrorKind Hash)
      .require (headerRoot = header.prevRoot) .invalidRoot

def validateSizes : Routine Extension ErrorKind Unit := .query fun ext =>
  if ext.header.height = 0 then
    .ok ()
  else
    let expectedHeaderMmrSize := insertionToPmmrIndex (ext.header.height.toNat + 2) - 1
    .require (ext.headerPmmr.unprunedSize = expectedHeaderMmrSize
      ∧ ext.outputPmmr.unprunedSize = ext.header.outputMmrSize.toNat
      ∧ ext.kernelPmmr.unprunedSize = ext.header.kernelMmrSize.toNat
      ∧ ext.outputPmmr.unprunedSize = ext.rproofPmmr.unprunedSize) .invalidMMRSize

def rebuildIndex : Routine Extension ErrorKind Unit := .modify fun ext =>
  let save := fun (batch : Batch) pos =>
    match ext.outputPmmr.getData pos with
    | some out => batch.saveOutputPos out.commit pos
    | none => batch
  let leafPos := Bitmap.iter ext.outputPmmr.backend.leafSet.bitmap
  { ext with batch := leafPos.foldl save ext.batch.clearOutputPos }

end Extension

structure ChainState where
  trees : TxHashSet
  batch : Batch

def HeaderExtension.close {α : Type} (get : TxHashSet → PMMR HeaderEntry)
    (set : PMMR HeaderEntry → TxHashSet → TxHashSet) (st : ChainState) (res : Outcome ErrorKind α)
    (ext : HeaderExtension)
    : Outcome ErrorKind α × ChainState :=
  let discarded := { st with
    trees := set ⟨ext.pmmr.backend.discard, (get st.trees).lastPos⟩ st.trees }
  match res with
  | .ok r =>
    if ext.rollback then
      (.ok r, discarded)
    else
      (.ok r, ⟨set ⟨ext.pmmr.backend.sync, ext.size⟩ st.trees, ext.batch⟩)
  | .err e => (.err e, discarded)
  | .panic => (.panic, discarded)
  | .hang => (.hang, discarded)

def runHeaderExtension {α : Type} (get : TxHashSet → PMMR HeaderEntry)
    (set : PMMR HeaderEntry → TxHashSet → TxHashSet) (inner : Routine HeaderExtension ErrorKind α)
    (header : BlockHeader)
    : Routine ChainState ErrorKind α := fun st =>
  let (res, ext) := inner ⟨header, get st.trees, false, st.batch⟩
  ext.close get set st res

-- header_extending and sync_extending, which differ in the mountain range and its head
def extendingHeaders {α : Type} (head : Batch → Outcome ErrorKind Tip)
    (get : TxHashSet → PMMR HeaderEntry) (set : PMMR HeaderEntry → TxHashSet → TxHashSet)
    (inner : Routine HeaderExtension ErrorKind α)
    : Routine ChainState ErrorKind α := do
  let header ← .query fun st => head st.batch >>= fun tip => st.batch.getBlockHeader tip.lastBlockH
  runHeaderExtension get set inner header

def headerExtending {α : Type} (inner : Routine HeaderExtension ErrorKind α)
    : Routine ChainState ErrorKind α :=
  extendingHeaders Batch.head (·.headerPmmr) (fun p t => { t with headerPmmr := p }) inner

def syncExtending {α : Type} (inner : Routine HeaderExtension ErrorKind α)
    : Routine ChainState ErrorKind α :=
  extendingHeaders Batch.getSyncHead (·.syncPmmr) (fun p t => { t with syncPmmr := p }) inner

def Extension.discard (trees : TxHashSet) (ext : Extension) : TxHashSet := { trees with
  headerPmmr := ⟨ext.headerPmmr.backend.discard, trees.headerPmmr.lastPos⟩
  outputPmmr := ⟨ext.outputPmmr.backend.discard, trees.outputPmmr.lastPos⟩
  rproofPmmr := ⟨ext.rproofPmmr.backend.discard, trees.rproofPmmr.lastPos⟩
  kernelPmmr := ⟨ext.kernelPmmr.backend.discard, trees.kernelPmmr.lastPos⟩ }

def Extension.sync (trees : TxHashSet) (ext : Extension) : TxHashSet := { trees with
  headerPmmr := ext.headerPmmr.sync
  outputPmmr := ext.outputPmmr.sync
  rproofPmmr := ext.rproofPmmr.sync
  kernelPmmr := ext.kernelPmmr.sync }

def Extension.new (st : ChainState) (header : BlockHeader) : Extension where
  header := header
  headerPmmr := st.trees.headerPmmr
  outputPmmr := st.trees.outputPmmr
  rproofPmmr := st.trees.rproofPmmr
  kernelPmmr := st.trees.kernelPmmr
  rollback := false
  batch := st.batch

def Extension.close {α : Type} (st : ChainState) (res : Outcome ErrorKind α) (ext : Extension)
    : Outcome ErrorKind α × ChainState :=
  let discarded := { st with trees := ext.discard st.trees }
  match res with
  | .ok r =>
    if ext.rollback then
      (.ok r, discarded)
    else
      (.ok r, ⟨ext.sync st.trees, ext.batch⟩)
  | .err e => (.err e, discarded)
  | .panic => (.panic, discarded)
  | .hang => (.hang, discarded)

def runExtension {α : Type} (inner : Routine Extension ErrorKind α) (header : BlockHeader)
    : Routine ChainState ErrorKind α := fun st =>
  let (res, ext) := inner (.new st header)
  ext.close st res

def extending {α : Type} (inner : Routine Extension ErrorKind α) : Routine ChainState ErrorKind α := do
  let header ← .query fun st => st.batch.headHeader
  runExtension inner header

def extendingReadonly {α : Type} (inner : Routine Extension ErrorKind α)
    : Routine ChainState ErrorKind α := do
  let header ← .query fun st => st.batch.headHeader
  fun st =>
    let (res, ext) := inner { Extension.new st header with rollback := true }
    (res, { st with trees := ext.discard st.trees })

end Epic
