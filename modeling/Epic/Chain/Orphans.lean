import Epic.Chain.Pipe.ValidateHeader
import Mathlib.Data.List.Sort

/-!
This module contains the pool of blocks whose predecessor is not known yet.
-/

namespace Epic

structure Orphan where
  block : Block
  opts : Options
  added : Nat
deriving DecidableEq

structure OrphanBlockPool where
  orphans : AList fun _ : Hash => Orphan
  heightIdx : AList fun _ : UInt64 => List Hash
  evicted : Nat
deriving DecidableEq

namespace OrphanBlockPool

def maxOrphanSize : Nat := 200

def maxOrphanAgeSecs : Nat := 300

def new : OrphanBlockPool := ⟨∅, ∅, 0⟩

def len (pool : OrphanBlockPool) : Nat := pool.orphans.entries.length

def contains (pool : OrphanBlockPool) (hash : Hash) : Bool := (pool.orphans.lookup hash).isSome

def retain {α β : Type} [DecidableEq α] (p : α → β → Bool) (t : AList fun _ : α => β)
    : AList fun _ : α => β :=
  t.entries.foldl (fun acc s => if p s.1 s.2 then acc else acc.erase s.1) t

-- evict those too far ahead, from the greatest height down
def evictHeights (heights : List UInt64) (pool : OrphanBlockPool) : OrphanBlockPool :=
  match heights with
  | [] => pool
  | h :: heights =>
    let hs := (pool.heightIdx.lookup h).getD []
    let pool := { pool with
      orphans := hs.foldl (fun t hash => t.erase hash) pool.orphans
      heightIdx := pool.heightIdx.erase h }
    if pool.len < maxOrphanSize then pool else evictHeights heights pool

def evict (now : Nat) (pool : OrphanBlockPool) : OrphanBlockPool :=
  let oldLen := pool.len
  let young := fun (_ : Hash) (x : Orphan) => decide (now - x.added < maxOrphanAgeSecs)
  let pool := { pool with orphans := retain young pool.orphans }
  let heights := pool.heightIdx.keys.insertionSort (· ≥ ·)
  let pool := evictHeights heights pool
  { pool with
    heightIdx := retain (fun _ xs => xs.any pool.contains) pool.heightIdx
    evicted := pool.evicted + (oldLen - pool.len) }

def add (env : Env) (now : Nat) (pool : OrphanBlockPool) (orphan : Orphan) : OrphanBlockPool :=
  let height := orphan.block.header.height
  let hash := orphan.block.hash env
  let heightHashes := (pool.heightIdx.lookup height).getD []
  let pool := { pool with
    heightIdx := pool.heightIdx.insert height (heightHashes ++ [hash])
    orphans := pool.orphans.insert hash orphan }
  if pool.len > maxOrphanSize then pool.evict now else pool

def removeAll (hs : List Hash) (pool : OrphanBlockPool) : List Orphan × OrphanBlockPool :=
  match hs with
  | [] => ([], pool)
  | h :: hs =>
    let (rest, pool') := removeAll hs { pool with orphans := pool.orphans.erase h }
    match pool.orphans.lookup h with
    | some orphan => (orphan :: rest, pool')
    | none => (rest, pool')

def removeByHeight (height : UInt64) (pool : OrphanBlockPool)
    : Option (List Orphan) × OrphanBlockPool :=
  match pool.heightIdx.lookup height with
  | some hs =>
    let (orphans, pool) := removeAll hs { pool with heightIdx := pool.heightIdx.erase height }
    (some orphans, pool)
  | none => (none, pool)

end OrphanBlockPool

end Epic
