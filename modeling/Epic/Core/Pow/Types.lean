import Epic.Util.MachineInt
import Mathlib.Data.Vector.Basic
import Mathlib.Algebra.GroupWithZero.Nat

/-!
This module contains the proof of work data of a block header: the four algorithms, the maps the
source keys by them, the difficulty and the proofs.
-/

namespace Epic

inductive PoWType where
  | cuckaroo
  | cuckatoo
  | randomX
  | progPow
deriving DecidableEq, Repr

namespace PoWType

def all : List PoWType := [cuckaroo, cuckatoo, randomX, progPow]

theorem mem_all (a : PoWType)
    : a ∈ all := by
  cases a <;> decide

theorem nodup_all
    : all.Nodup := by
  decide

def toU8 (a : PoWType) : UInt8 :=
  match a with
  | cuckaroo => 0
  | cuckatoo => 1
  | randomX => 2
  | progPow => 3

def tryFrom (v : UInt8) : Option PoWType :=
  if v = 0 then
    some cuckaroo
  else if v = 1 then
    some cuckatoo
  else if v = 2 then
    some randomX
  else if v = 3 then
    some progPow
  else
    none

end PoWType

structure PoWMap (α : Type) where
  cuckaroo : Option α
  cuckatoo : Option α
  randomX : Option α
  progPow : Option α
deriving DecidableEq, Repr

namespace PoWMap

variable {α : Type}

def empty : PoWMap α := ⟨none, none, none, none⟩

def get (m : PoWMap α) (a : PoWType) : Option α :=
  match a with
  | .cuckaroo => m.cuckaroo
  | .cuckatoo => m.cuckatoo
  | .randomX => m.randomX
  | .progPow => m.progPow

def insert (m : PoWMap α) (a : PoWType) (v : α) : PoWMap α :=
  match a with
  | .cuckaroo => { m with cuckaroo := some v }
  | .cuckatoo => { m with cuckatoo := some v }
  | .randomX => { m with randomX := some v }
  | .progPow => { m with progPow := some v }

def entries (m : PoWMap α) : List (PoWType × α) :=
  PoWType.all.filterMap fun a => (m.get a).map fun v => (a, v)

def values (m : PoWMap α) : List α := m.entries.map (·.2)

@[ext]
theorem ext {m n : PoWMap α} (h : ∀ a, m.get a = n.get a)
    : m = n := by
  cases m
  cases n
  simp only [mk.injEq]
  exact ⟨h .cuckaroo, h .cuckatoo, h .randomX, h .progPow⟩

@[simp]
theorem get_insert (m : PoWMap α) (a b : PoWType) (v : α)
    : (m.insert a v).get b = if b = a then some v else m.get b := by
  cases a <;> cases b <;> rfl

theorem mem_entries {m : PoWMap α}
    : (a, v) ∈ m.entries ↔ m.get a = some v := by
  unfold entries
  simp only [List.mem_filterMap, Option.map_eq_some_iff, Prod.mk.injEq]
  constructor
  . rintro ⟨b, -, w, hw, rfl, rfl⟩
    exact hw
  . intro h
    exact ⟨a, PoWType.mem_all a, v, h, rfl, rfl⟩

end PoWMap

abbrev DifficultyNumber := PoWMap UInt64

def DifficultyNumber.number (v : UInt64) : DifficultyNumber :=
  ⟨some v, some v, some v, some v⟩

@[simp]
theorem DifficultyNumber.get_number (v : UInt64) (a : PoWType)
    : (DifficultyNumber.number v).get a = some v := by
  cases a <;> rfl

structure Difficulty where
  num : DifficultyNumber
deriving DecidableEq, Repr

namespace Difficulty

def zero : Difficulty := ⟨DifficultyNumber.number 0⟩

def fromNum (num : UInt64) : Difficulty := ⟨DifficultyNumber.number (max num 1)⟩

def fromDicNumber (num : DifficultyNumber) : Difficulty := ⟨num⟩

def toNum (d : Difficulty) (pow : PoWType) : UInt64 := (d.num.get pow).getD 0

def total (d : Difficulty) : Nat := (d.num.values.map UInt64.toNat).sum

def add {ε : Type} (checks : Bool) (d other : Difficulty) : Outcome ε Difficulty := do
  let num ← d.num.entries.foldlM (fun (acc : DifficultyNumber) (algo, v) => do
    let v ← MachineInt.add checks v ((other.num.get algo).getD 0)
    return acc.insert algo v) (DifficultyNumber.number 0)
  return ⟨num⟩

def sub {ε : Type} (checks : Bool) (d other : Difficulty) : Outcome ε Difficulty := do
  let num ← d.num.entries.foldlM (fun (acc : DifficultyNumber) (algo, v) => do
    let v ← MachineInt.sub checks v ((other.num.get algo).getD 0)
    return acc.insert algo v) (DifficultyNumber.number 0)
  return ⟨num⟩

end Difficulty

abbrev Bytes32 := List.Vector UInt8 32

inductive Proof where
  | cuckoo (edgeBits : UInt8) (nonces : List UInt64)
  | md5 (proof : String) (edgeBits : UInt8)
  | randomX (hash : Bytes32)
  | progPow (mix : Bytes32)
deriving DecidableEq

def PoWType.fromProof (v : Proof) : PoWType :=
  match v with
  | .cuckoo edgeBits _ =>
    if edgeBits = 19 ∨ edgeBits = 31 then
      .cuckatoo
    else
      .cuckaroo
  | .randomX _ => .randomX
  | .progPow _ => .progPow
  | .md5 _ _ => .randomX

structure ProofOfWork where
  totalDifficulty : Difficulty
  secondaryScaling : UInt32
  nonce : UInt64
  proof : Proof
  seed : Bytes32
deriving DecidableEq

namespace ProofOfWork

def edgeBits (pow : ProofOfWork) : UInt8 :=
  match pow.proof with
  | .cuckoo edgeBits _ => edgeBits
  | .md5 _ edgeBits => edgeBits
  | _ => 16

end ProofOfWork

end Epic
