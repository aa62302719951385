import Epic.Chain.Error
import Epic.Chain.Store.HeaderDb
import Epic.Core.Pmmr

/-!
This module contains the chain store: the database tables of the chain, and the batches that read and
write them.
-/

namespace Epic

structure Tip where
  height : UInt64
  lastBlockH : Hash
  prevBlockH : Hash
  totalDifficulty : Difficulty
deriving DecidableEq

def Tip.fromHeader (env : Env) (header : BlockHeader) : Tip where
  height := header.height
  lastBlockH := header.hash env
  prevBlockH := header.prevHash
  totalDifficulty := header.totalDifficulty

structure ChainStore where
  head : Option Tip
  tail : Option Tip
  headerHead : Option Tip
  syncHead : Option Tip
  blocks : AList fun _ : Hash => Block
  headers : HeaderDb
  outputPos : AList fun _ : Commitment => Nat
  blockSums : AList fun _ : Hash => BlockSums
  inputBitmaps : AList fun _ : Hash => Bitmap
deriving DecidableEq

def ChainStore.new : ChainStore := ⟨none, none, none, none, ∅, ∅, ∅, ∅, ∅⟩

/-!
A batch is a write transaction. What it has read so far of the tables is `db`. Lookups that do not go
through the transaction see what was committed before it started. A child batch is a copy, it is
merged by taking over its tables.
-/

structure Batch where
  committed : ChainStore
  db : ChainStore

def ChainStore.batch (store : ChainStore) : Batch := ⟨store, store⟩

namespace Batch

def notFound (what : String) (key : List UInt8) : ErrorKind :=
  .storeErr (.notFoundErr what key) "NotFoundErr"

def head (b : Batch) : Outcome ErrorKind Tip := .okOr b.db.head (notFound "HEAD" [])

def headerHead (b : Batch) : Outcome ErrorKind Tip :=
  .okOr b.db.headerHead (notFound "HEADER_HEAD" [])

def getSyncHead (b : Batch) : Outcome ErrorKind Tip := .okOr b.db.syncHead (notFound "SYNC_HEAD" [])

def getBlockHeader (b : Batch) (h : Hash) : Outcome ErrorKind BlockHeader :=
  .okOr (b.db.headers.getBlockHeader h) (notFound "BLOCK HEADER: " h.bytes)

def getPreviousHeader (b : Batch) (header : BlockHeader) : Outcome ErrorKind BlockHeader :=
  b.getBlockHeader header.prevHash

def headHeader (b : Batch) : Outcome ErrorKind BlockHeader := do
  let head ← b.head
  b.getBlockHeader head.lastBlockH

def getBlock (b : Batch) (h : Hash) : Option Block := b.db.blocks.lookup h

-- not read through the transaction
def blockExists (b : Batch) (h : Hash) : Bool := (b.committed.blocks.lookup h).isSome

def getBlockSums (b : Batch) (h : Hash) : Outcome ErrorKind BlockSums :=
  .okOr (b.db.blockSums.lookup h) (notFound "Block sums for block: " h.bytes)

def getOutputPos (b : Batch) (commit : Commitment) : Option Nat := b.db.outputPos.lookup commit

def saveBodyHead (b : Batch) (t : Tip) : Batch := { b with db := { b.db with head := some t } }

def saveBodyTail (b : Batch) (t : Tip) : Batch := { b with db := { b.db with tail := some t } }

def saveHeaderHead (b : Batch) (t : Tip) : Batch :=
  { b with db := { b.db with headerHead := some t } }

def saveSyncHead (b : Batch) (t : Tip) : Batch := { b with db := { b.db with syncHead := some t } }

def saveHead (b : Batch) (t : Tip) : Batch := (b.saveBodyHead t).saveHeaderHead t

def saveBlockHeader (env : Env) (b : Batch) (header : BlockHeader) : Batch :=
  { b with db := { b.db with headers := b.db.headers.saveBlockHeader env header } }

def saveOutputPos (b : Batch) (commit : Commitment) (pos : Nat) : Batch :=
  { b with db := { b.db with outputPos := b.db.outputPos.insert commit pos } }

def clearOutputPos (b : Batch) : Batch :=
  let outputPos := b.committed.outputPos.keys.foldl (fun t commit => t.erase commit) b.db.outputPos
  { b with db := { b.db with outputPos := outputPos } }

def saveBlockSums (b : Batch) (h : Hash) (sums : BlockSums) : Batch :=
  { b with db := { b.db with blockSums := b.db.blockSums.insert h sums } }

-- the positions are cast to u32
def buildBlockInputBitmap (b : Batch) (block : Block) : Bitmap :=
  ((block.body.inputs.filterMap fun x => b.getOutputPos x.commit).map (· % 2 ^ 32)).toFinset

def buildAndStoreBlockInputBitmap (env : Env) (b : Batch) (block : Block) : Bitmap × Batch :=
  let bitmap := b.buildBlockInputBitmap block
  let inputBitmaps := b.db.inputBitmaps.insert (block.hash env) bitmap
  (bitmap, { b with db := { b.db with inputBitmaps := inputBitmaps } })

-- the stored bitmap is not read through the transaction, the block is
def getBlockInputBitmap (env : Env) (b : Batch) (bh : Hash) : Option Bitmap × Batch :=
  match b.committed.inputBitmaps.lookup bh with
  | some bitmap => (some bitmap, b)
  | none =>
    match b.getBlock bh with
    | some block =>
      let (bitmap, b) := b.buildAndStoreBlockInputBitmap env block
      (some bitmap, b)
    | none => (none, b)

def saveBlock (env : Env) (b : Batch) (block : Block) : Batch :=
  let b := (b.buildAndStoreBlockInputBitmap env block).2
  { b with db := { b.db with blocks := b.db.blocks.insert (block.hash env) block } }

-- deleting a key that is missing fails, and then the other data of the block stays
def deleteBlock (b : Batch) (bh : Hash) : Batch :=
  if bh ∈ b.db.blocks then
    { b with
      db := { b.db with
        blocks := b.db.blocks.erase bh
        blockSums := b.db.blockSums.erase bh
        inputBitmaps := b.db.inputBitmaps.erase bh } }
  else
    b

end Batch

end Epic
