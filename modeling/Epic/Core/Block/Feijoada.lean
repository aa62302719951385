import Epic.Core.Global
import Mathlib.Data.Rat.Lemmas
import Mathlib.Algebra.Order.Ring.Rat

/-!
This module contains the feijoada schedule: how the policy and the bottles of the previous block
determine the algorithm of the next one, and the bottles it has to carry.
-/

namespace Epic

def lastMaxBy {α β : Type} [LE β] [DecidableLE β] (key : α → β) (l : List α) : Option α :=
  l.foldl (fun acc y =>
    match acc with
    | none => some y
    | some x => if key x ≤ key y then some y else some x) none

namespace AllowPolicy

def search {ε : Type} (allowed : List AllowPolicy) (height : UInt64) : Outcome ε UInt64 := do
  let maxPolicy := lastMaxBy (·.height) (allowed.filter fun p => p.height ≤ height)
  match maxPolicy with
  | some p => return p.value
  | none =>
    let last ← .unwrap allowed.getLast?
    return last.value

end AllowPolicy

namespace Feijoada

variable {ε : Type}

def getBottlesDefault : Policy := ⟨some 0, some 0, some 0, some 0⟩

def countBeans (checks : Bool) (bottles : Policy) : Outcome ε UInt32 := do
  let sum ← MachineInt.sum checks bottles.values
  return max sum 1

def nextShouldReset (checks : Bool) (bottle : Policy) : Outcome ε Bool := do
  let beans ← countBeans checks bottle
  return beans == 100

def nextBlockBottles (checks : Bool) (pow : PoWType) (bottle : Policy) : Outcome ε Policy := do
  let reset ← nextShouldReset checks bottle
  let newBottle := if reset then getBottlesDefault else bottle
  let entry ← MachineInt.add checks ((newBottle.get pow).getD 0) 1
  return newBottle.insert pow entry

def isAllowedPolicy (checks : Bool) (allowedPolicy : List AllowPolicy) (height : UInt64)
    (policy : UInt8)
    : Outcome ε Bool := do
  let allow ← AllowPolicy.search allowedPolicy height
  let mask ← MachineInt.shl checks 64 (1 : UInt64) policy.toNat
  return allow &&& mask != 0

def score (round : ℚ → ℚ) (beanTotal proportion beans : UInt32) : ℚ :=
  let share := round (round (100 * round beans.toNat) / round beanTotal.toNat)
  round (round proportion.toNat - share)

def chooseAlgo (round : ℚ → ℚ) (checks : Bool) (policy bottles : Policy) : Outcome ε PoWType := do
  let beanTotal ← countBeans checks bottles
  let policyVec := policy.entries.filter fun (_, proportion) => 0 < proportion
  let ranked ← policyVec.mapM fun (algo, proportion) => do
    let beans ← .unwrap (bottles.get algo)
    return (algo, score round beanTotal proportion beans)
  let best ← .unwrap (lastMaxBy (·.2) ranked)
  return best.1

theorem chooseAlgo_eq (round : ℚ → ℚ) (checks : Bool) (policy bottles : Policy)
    : (chooseAlgo round checks policy bottles : Outcome ε PoWType)
        =
      countBeans checks bottles >>= fun beanTotal =>
        ((policy.entries.filter fun x => 0 < x.2).mapM fun x =>
          .unwrap (bottles.get x.1) >>= fun beans =>
            pure (x.1, score round beanTotal x.2 beans)) >>= fun ranked =>
          .unwrap (lastMaxBy (·.2) ranked) >>= fun best => pure best.1 := rfl

end Feijoada

def PolicyConfig.default : PolicyConfig where
  allowedPolicies := [
    ⟨0, (1 : UInt64) <<< 0⟩,
    ⟨Consensus.blockEra1 + 1, (1 : UInt64) <<< 1⟩,
    ⟨Consensus.blockEra2 + 1, (1 : UInt64) <<< 2⟩,
    ⟨Consensus.blockEra3 + 1, (1 : UInt64) <<< 3⟩,
    ⟨Consensus.blockEra4 + 1, (1 : UInt64) <<< 4⟩,
    ⟨Consensus.blockEra5 + 1, (1 : UInt64) <<< 5⟩]
  policies := [
    ⟨some 0, some 2, some 60, some 38⟩,
    ⟨some 0, some 2, some 60, some 38⟩,
    ⟨some 0, some 4, some 48, some 48⟩,
    ⟨some 0, some 55, some 5, some 40⟩,
    ⟨some 0, some 75, some 5, some 20⟩,
    ⟨some 0, some 85, some 5, some 10⟩]

theorem AllowPolicy.succ_le_iff (height : UInt64) (h : era.toNat + 1 < 2 ^ 64)
    : era + 1 ≤ height ↔ ¬ height ≤ era := by
  rw [UInt64.le_iff_toNat_le, UInt64.le_iff_toNat_le, UInt64.toNat_add, UInt64.toNat_one,
    Nat.mod_eq_of_lt h]
  omega

-- the default configuration allows the policy that is emitted
open Consensus in
theorem PolicyConfig.isAllowedPolicy_default (checks : Bool) (height : UInt64)
    : (Feijoada.isAllowedPolicy checks default.allowedPolicies height (Global.getEmittedPolicy height)
        : Outcome ε Bool) = .ok true := by
  have h₂ : height ≤ blockEra1 → height ≤ blockEra2 := fun h => UInt64.le_trans h (by decide)
  have h₃ : height ≤ blockEra2 → height ≤ blockEra3 := fun h => UInt64.le_trans h (by decide)
  have h₄ : height ≤ blockEra3 → height ≤ blockEra4 := fun h => UInt64.le_trans h (by decide)
  have h₅ : height ≤ blockEra4 → height ≤ blockEra5 := fun h => UInt64.le_trans h (by decide)
  have hfilter : default.allowedPolicies.filter (fun p => p.height ≤ height)
      = default.allowedPolicies.take ((Global.getEmittedPolicy height).toNat + 1) := by
    have hs₁ : blockEra1 + 1 ≤ height ↔ _ := AllowPolicy.succ_le_iff height (by decide)
    have hs₂ : blockEra2 + 1 ≤ height ↔ _ := AllowPolicy.succ_le_iff height (by decide)
    have hs₃ : blockEra3 + 1 ≤ height ↔ _ := AllowPolicy.succ_le_iff height (by decide)
    have hs₄ : blockEra4 + 1 ≤ height ↔ _ := AllowPolicy.succ_le_iff height (by decide)
    have hs₅ : blockEra5 + 1 ≤ height ↔ _ := AllowPolicy.succ_le_iff height (by decide)
    unfold default Global.getEmittedPolicy
    split_ifs <;> simp_all
  have hmem : Global.getEmittedPolicy height ∈ [0, 1, 2, 3, 4, 5] := by
    unfold Global.getEmittedPolicy
    split_ifs <;> simp
  unfold Feijoada.isAllowedPolicy AllowPolicy.search
  rw [hfilter]
  generalize Global.getEmittedPolicy height = policy at hmem
  simp only [List.mem_cons, List.not_mem_nil, or_false] at hmem
  rcases hmem with rfl | rfl | rfl | rfl | rfl | rfl <;> cases checks <;> rfl

namespace Consensus

open Feijoada

def nextPolicy {ε : Type} (env : Env) (policy : UInt8) (cursor : Option Policy)
    : Outcome ε (PoWType × Policy) := do
  let bottles := cursor.getD getBottlesDefault
  let policies ← .unwrap (Global.getPolicies env.policyConfig policy)
  let powType ← chooseAlgo env.roundF32 env.overflowChecks policies bottles
  let b ← nextBlockBottles env.overflowChecks powType bottles
  return (powType, b)

end Consensus

end Epic
