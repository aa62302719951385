import Epic.Core.Consensus.Difficulty
import Mathlib.Algebra.BigOperators.Ring.Finset
import Mathlib.Algebra.Group.Action.Defs
import Mathlib.Algebra.Order.BigOperators.Group.Finset

/-!
This module contains what the next scaling takes from the earlier blocks: the sum of their scalings and
the number of secondary ones among them.
-/

namespace Epic

open MachineInt

variable {ε : Type}

open HeaderInfo

variable {l l' : List HeaderInfo}

namespace Consensus

/-!
The scaling is the sum of the scalings times a quotient that does not depend on them.
-/

def adjCount (checks : Bool) (height : UInt64) (diffData : List HeaderInfo) : Outcome ε UInt64 := do
  let targetCount ← mul checks difficultyAdjustWindow (secondaryPowRatio height)
  let count ← arCount checks diffData
  let damped ← damp checks count targetCount arScaleDampFactor
  clamp checks damped targetCount clampFactor

def scalingSum (l : List HeaderInfo) : Nat := (l.map (·.secondaryScaling.toNat)).sum

theorem secondaryPowRatio_le (height : UInt64)
    : (secondaryPowRatio height).toNat ≤ 90 := by
  rw [secondaryPowRatio, toNat_saturatingSub]
  exact Nat.sub_le _ _

theorem scalingSum_le (hlen : l.length ≤ 60)
    : scalingSum l ≤ 60 * 4294967295 := by
  have hle : ∀ n ∈ l.map (·.secondaryScaling.toNat), n ≤ 4294967295 := by
    intro n hn
    obtain ⟨info, -, rfl⟩ := List.mem_map.mp hn
    have := info.secondaryScaling.toNat_lt
    omega
  have hsum := List.sum_le_card_nsmul _ _ hle
  rw [List.length_map, smul_eq_mul] at hsum
  exact hsum.trans (Nat.mul_le_mul_right _ hlen)

theorem sum_scaling (checks : Bool) (hlen : l.length ≤ 60)
    : (sum checks (l.map (·.secondaryScaling.toUInt64)) : Outcome ε UInt64)
        = .ok (UInt64.ofNat (scalingSum l)) := by
  have hle := scalingSum_le hlen
  have hval : ((l.map (·.secondaryScaling.toUInt64)).map UInt64.toNat).sum = scalingSum l := by
    rw [List.map_map]
    rfl
  rw [sum_eq_ok checks (by rw [hval]; omega), hval]

theorem toNat_max (a b : UInt64)
    : (max a b).toNat = max a.toNat b.toNat := by
  have hmax : max a b = if a ≤ b then b else a := rfl
  rw [hmax]
  split
  . next hle => exact (Nat.max_eq_right (UInt64.le_iff_toNat_le.mp hle)).symm
  . next hgt =>
    rw [UInt64.le_iff_toNat_le] at hgt
    omega

def secondaryPowScale (checks : Bool) (height : UInt64) (diffData : List HeaderInfo) : Outcome ε UInt64 := do
  let scaleSum ← sum checks (diffData.map (·.secondaryScaling.toUInt64))
  let adj ← adjCount checks height diffData
  let scaled ← mul checks scaleSum (secondaryPowRatio height)
  let scale ← div scaled (max 1 adj)
  return max minArScale scale

theorem secondaryPowScaling_eq_cast (checks : Bool) (height : UInt64) (diffData : List HeaderInfo)
    : (secondaryPowScaling checks height diffData : Outcome ε UInt32)
        = secondaryPowScale checks height diffData >>= fun scale => .ok scale.toUInt32 := by
  simp only [secondaryPowScaling, secondaryPowScale, adjCount, bind_assoc, Outcome.pure_eq_ok,
    Outcome.ok_bind]

theorem secondaryPowScale_eq (checks : Bool) (height : UInt64) (hlen : l.length ≤ 60)
    : (secondaryPowScale checks height l : Outcome ε UInt64)
        =
      adjCount checks height l >>= fun adj =>
        .ok (UInt64.ofNat (max 13 (scalingSum l * (secondaryPowRatio height).toNat / max 1 adj.toNat))) := by
  have hpct := secondaryPowRatio_le height
  have hsum := scalingSum_le hlen
  have hprod := Nat.mul_le_mul hsum hpct
  have htoNat : (UInt64.ofNat (scalingSum l)).toNat = scalingSum l :=
    UInt64.toNat_ofNat_of_lt' (by unfold UInt64.size; omega)
  have hscale (adj : UInt64) : (mul checks (UInt64.ofNat (scalingSum l)) (secondaryPowRatio height)
        >>= fun scaled => div scaled (max 1 adj)
        >>= fun scale => (pure (max minArScale scale) : Outcome ε UInt64))
      = .ok (UInt64.ofNat
          (max 13 (scalingSum l * (secondaryPowRatio height).toNat / max 1 adj.toNat))) := by
    have hone : (1 : UInt64).toNat = 1 := rfl
    have hdiv : (max 1 adj).toNat ≠ 0 := by
      rw [toNat_max, hone]
      omega
    rw [mul_eq_ok (by rw [htoNat]; omega), Outcome.ok_bind, div_eq_ok hdiv, Outcome.ok_bind,
      Outcome.pure_eq_ok]
    apply congrArg Outcome.ok
    have hquot : scalingSum l * (secondaryPowRatio height).toNat / max 1 adj.toNat
        ≤ scalingSum l * (secondaryPowRatio height).toNat := Nat.div_le_self _ _
    apply UInt64.toNat_inj.mp
    rw [toNat_max, UInt64.toNat_div, UInt64.toNat_mul, htoNat, toNat_max, hone,
      Nat.mod_eq_of_lt (by omega), UInt64.toNat_ofNat_of_lt' (by unfold UInt64.size; omega)]
    rfl
  unfold secondaryPowScale
  rw [sum_scaling checks hlen, Outcome.ok_bind]
  simp only [hscale]

end Consensus

namespace Global

open Consensus

theorem map_alignTimestamps {α : Type} {f : HeaderInfo → α}
    (hf : ∀ (info : HeaderInfo) ts, f { info with timestamp := ts } = f info) (l : List HeaderInfo)
    : (alignTimestamps l).map f = l.map f := by
  have hgo (prev : HeaderInfo) (l : List HeaderInfo) : (alignTimestamps.go prev l).map f = l.map f := by
    induction l generalizing prev with
    | nil => rfl
    | cons info l ih => simp only [alignTimestamps.go, List.map_cons, ih, hf]
  cases l with
  | nil => rfl
  | cons info l => simp only [alignTimestamps, List.map_cons, hgo]

theorem scaling_alignTimestamps (l : List HeaderInfo)
    : (alignTimestamps l).map (·.secondaryScaling) = l.map (·.secondaryScaling) :=
  map_alignTimestamps (fun _ _ => rfl) l

theorem length_alignTimestamps (l : List HeaderInfo)
    : (alignTimestamps l).length = l.length := by
  have := congrArg List.length (scaling_alignTimestamps l)
  rwa [List.length_map, List.length_map] at this

theorem difficultyDataToVector_eq (hw : w.toNat + 1 < 2 ^ 64)
    (cursor : Nat → Outcome ε (List HeaderInfo))
    : difficultyDataToVector env cursor w
        = cursor (w.toNat + 1) >>= fun taken => padToVector env taken (w.toNat + 1) := by
  have hone : (1 : UInt64).toNat = 1 := rfl
  have hval : (w + 1).toNat = w.toNat + 1 := by
    rw [UInt64.toNat_add, hone, Nat.mod_eq_of_lt hw]
  unfold difficultyDataToVector
  rw [add_eq_ok (by rw [hone]; exact hw), Outcome.ok_bind, hval]

end Global

namespace Consensus

theorem toNat_min (a b : UInt64)
    : (min a b).toNat = min a.toNat b.toNat := by
  have hmin : min a b = if a ≤ b then a else b := rfl
  rw [hmin]
  split
  . next hle => exact (Nat.min_eq_left (UInt64.le_iff_toNat_le.mp hle)).symm
  . next hgt =>
    rw [UInt64.le_iff_toNat_le] at hgt
    omega

-- the count of secondary blocks in percent, damped and clamped
def adjustedCount (pct count : Nat) : Nat :=
  max (30 * pct) (min ((100 * count + 720 * pct) / 13) (120 * pct))

theorem damp_ok (checks : Bool) (actual goal : UInt64) (hpos : 1 ≤ dampFactor.toNat)
    (hfits : actual.toNat + (dampFactor.toNat - 1) * goal.toNat < 2 ^ 64)
    : ∃ damped, (damp checks actual goal dampFactor : Outcome ε UInt64) = .ok damped
        ∧ damped.toNat = (actual.toNat + (dampFactor.toNat - 1) * goal.toNat) / dampFactor.toNat := by
  have hone : (1 : UInt64).toNat = 1 := rfl
  have hweight : (dampFactor - 1).toNat = dampFactor.toNat - 1 :=
    UInt64.toNat_sub_of_le _ _ (UInt64.le_iff_toNat_le.mpr hpos)
  have hpull : ((dampFactor - 1) * goal).toNat = (dampFactor.toNat - 1) * goal.toNat := by
    rw [UInt64.toNat_mul, hweight, Nat.mod_eq_of_lt (by omega)]
  refine ⟨(actual + (dampFactor - 1) * goal) / dampFactor, ?_, ?_⟩
  . unfold damp
    rw [sub_eq_ok (by rw [hone]; exact hpos), Outcome.ok_bind, mul_eq_ok (by rw [hweight]; omega), Outcome.ok_bind,
      add_eq_ok (by rw [hpull]; exact hfits), Outcome.ok_bind, div_eq_ok (by omega)]
  . rw [UInt64.toNat_div, UInt64.toNat_add, hpull, Nat.mod_eq_of_lt hfits]

theorem clamp_ok (checks : Bool) (actual goal : UInt64) {clampFactor : UInt64} (hpos : clampFactor.toNat ≠ 0)
    (hfits : goal.toNat * clampFactor.toNat < 2 ^ 64)
    : ∃ clamped, (clamp checks actual goal clampFactor : Outcome ε UInt64) = .ok clamped
        ∧ clamped.toNat
            = max (goal.toNat / clampFactor.toNat) (min actual.toNat (goal.toNat * clampFactor.toNat)) := by
  refine ⟨max (goal / clampFactor) (min actual (goal * clampFactor)), ?_, ?_⟩
  . unfold clamp
    rw [div_eq_ok hpos, Outcome.ok_bind, mul_eq_ok hfits]
    rfl
  . rw [toNat_max, toNat_min, UInt64.toNat_div, UInt64.toNat_mul, Nat.mod_eq_of_lt hfits]

theorem adjCount_ok (checks : Bool) (height : UInt64) (hlen : l.length ≤ 60)
    : ∃ adj, (adjCount checks height l : Outcome ε UInt64) = .ok adj
        ∧ adj.toNat
            = adjustedCount (secondaryPowRatio height).toNat (l.filter (·.isSecondary)).length := by
  have hpct := secondaryPowRatio_le height
  have hfilter := List.length_filter_le (·.isSecondary) l
  have hwindow : difficultyAdjustWindow.toNat = 60 := rfl
  have hclamp : clampFactor.toNat = 2 := rfl
  have hdamp : arScaleDampFactor.toNat = 13 := rfl
  have hhundred : (100 : UInt64).toNat = 100 := rfl
  have hgoal : (difficultyAdjustWindow * secondaryPowRatio height).toNat
      = 60 * (secondaryPowRatio height).toNat := by
    rw [UInt64.toNat_mul, hwindow, Nat.mod_eq_of_lt (by omega)]
  have hlength : (UInt64.ofNat (l.filter (·.isSecondary)).length).toNat
      = (l.filter (·.isSecondary)).length := UInt64.toNat_ofNat_of_lt' (by unfold UInt64.size; omega)
  have hcount : (100 * UInt64.ofNat (l.filter (·.isSecondary)).length).toNat
      = 100 * (l.filter (·.isSecondary)).length := by
    rw [UInt64.toNat_mul, hhundred, hlength, Nat.mod_eq_of_lt (by omega)]
  obtain ⟨damped, hdamped, hdampedVal⟩ := damp_ok (ε := ε) checks
    (100 * UInt64.ofNat (l.filter (·.isSecondary)).length)
    (difficultyAdjustWindow * secondaryPowRatio height) (by decide : 1 ≤ arScaleDampFactor.toNat)
    (by rw [hcount, hgoal, hdamp]; omega)
  obtain ⟨adj, hadj, hadjVal⟩ := clamp_ok (ε := ε) checks damped
    (difficultyAdjustWindow * secondaryPowRatio height) (by decide : clampFactor.toNat ≠ 0)
    (by rw [hgoal, hclamp]; omega)
  refine ⟨adj, ?_, ?_⟩
  . unfold adjCount arCount
    rw [mul_eq_ok (by rw [hwindow]; omega), Outcome.ok_bind, mul_eq_ok (by rw [hhundred, hlength]; omega),
      Outcome.ok_bind, hdamped, Outcome.ok_bind, hadj]
  . rw [hadjVal, hdampedVal, hcount, hgoal, hdamp, hclamp, adjustedCount]
    omega

end Consensus
end Epic
