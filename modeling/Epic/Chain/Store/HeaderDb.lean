import Epic.Core.Block.Header
import Epic.Core.Consensus.Difficulty
import Mathlib.Data.List.AList

/-!
This module contains the block headers of the chain store and the iterators over the ancestors of a
header.
-/

namespace Epic

abbrev HeaderDb := AList fun _ : Hash => BlockHeader

namespace HeaderDb

def getBlockHeader (db : HeaderDb) (h : Hash) : Option BlockHeader := db.lookup h

def getPreviousHeader (db : HeaderDb) (header : BlockHeader) : Option BlockHeader :=
  db.getBlockHeader header.prevHash

def saveBlockHeader (env : Env) (db : HeaderDb) (header : BlockHeader) : HeaderDb :=
  db.insert (header.hash env) header

theorem lookup_saveBlockHeader {db : HeaderDb}
    (hk : (db.saveBlockHeader env header).lookup k = some h)
    : db.lookup k = some h ∨ h = header ∧ header.hash env = k := by
  unfold saveBlockHeader at hk
  by_cases heq : k = header.hash env
  . subst heq
    rw [AList.lookup_insert] at hk
    injection hk with hk
    exact .inr ⟨hk.symm, rfl⟩
  . rw [AList.lookup_insert_ne heq] at hk
    exact .inl hk

end HeaderDb

structure BottleIter where
  start : Hash
  header : Option BlockHeader
  prevHeader : Option BlockHeader
  policy : UInt8

namespace BottleIter

def fromBatch (start : Hash) (policy : UInt8) : BottleIter := ⟨start, none, none, policy⟩

def limitSearch : Nat := 200

-- none if the search limit is exceeded, some none if the chain ends before
def search (db : HeaderDb) (policy : UInt8) (rounds : Nat) (head : BlockHeader)
    : Option (Option BlockHeader) :=
  match rounds with
  | 0 => none
  | rounds + 1 =>
    match db.getPreviousHeader head with
    | some prev => if policy = prev.policy then some (some prev) else search db policy rounds prev
    | none => some none

def next (db : HeaderDb) (iter : BottleIter) : Option Policy × BottleIter :=
  let current :=
    match iter.header with
    | none => db.getBlockHeader iter.start
    | some _ => iter.prevHeader
  let iter := { iter with header := current }
  match current with
  | none => (none, iter)
  | some header =>
    match search db iter.policy limitSearch header with
    | none => (none, iter)
    | some prevHeader =>
      let iter := { iter with prevHeader := prevHeader }
      if header.policy = iter.policy then
        (some header.bottles, iter)
      else
        (prevHeader.map (·.bottles), iter)

def first (db : HeaderDb) (start : Hash) (policy : UInt8) : Option Policy :=
  (next db (fromBatch start policy)).1

end BottleIter

namespace DifficultyIter

variable {ε : Type}

structure Found where
  prevHeader : Option BlockHeader
  difficulty : Difficulty
  prevTimespan : Int
  scaling : UInt32

-- the difficulty and the time span are those of header and its direct predecessor
def firstStep (env : Env) (db : HeaderDb) (header : BlockHeader) : Outcome ε (Difficulty × Int) :=
  match db.getPreviousHeader header with
  | some prev => do
    let difficulty ← header.totalDifficulty.sub env.overflowChecks prev.totalDifficulty
    return (difficulty, header.timestamp.timestamp - prev.timestamp.timestamp)
  | none => .ok (header.totalDifficulty, 60)

def search (db : HeaderDb) (powType : PoWType) (difficulty : Difficulty) (prevTimespan : Int)
    (fuel : Nat) (head : BlockHeader)
    : Outcome ε Found :=
  match fuel with
  | 0 => .hang
  | fuel + 1 =>
    match db.getPreviousHeader head with
    | some prev =>
      if powType = .fromProof prev.pow.proof then
        .ok ⟨some prev, difficulty, prevTimespan, head.pow.secondaryScaling⟩
      else
        search db powType difficulty prevTimespan fuel prev
    | none => .ok ⟨none, difficulty, prevTimespan, head.pow.secondaryScaling⟩

-- A walk that has looked up more headers than the store holds has looked one up twice and never ends.
def loop (env : Env) (db : HeaderDb) (header : BlockHeader) : Outcome ε Found := do
  let (difficulty, prevTimespan) ← firstStep env db header
  search db (.fromProof header.pow.proof) difficulty prevTimespan (db.entries.length + 1) header

def info (header : BlockHeader) (found : Found) : HeaderInfo where
  timestamp := MachineInt.ofInt header.timestamp.timestamp
  difficulty := found.difficulty
  secondaryScaling := found.scaling
  isSecondary := header.pow.isSecondary
  prevTimespan := MachineInt.ofInt found.prevTimespan

def go (env : Env) (db : HeaderDb) (count : Nat) (current : Option BlockHeader)
    : Outcome ε (List HeaderInfo) :=
  match count, current with
  | count + 1, some header => do
    let found ← loop env db header
    let rest ← go env db count found.prevHeader
    return info header found :: rest
  | _, _ => .ok []

def take (env : Env) (db : HeaderDb) (start : Hash) (count : Nat) : Outcome ε (List HeaderInfo) :=
  go env db count (db.getBlockHeader start)

end DifficultyIter

end Epic
