import Epic.Core.Consensus.Window
import Mathlib.Data.Rat.Cast.Order
import Mathlib.Tactic.FieldSimp
import Mathlib.Tactic.Linarith

/-!
This module contains how far the next scaling is from the scalings it is computed from. The rule expects a
window of an hour. After a hash the window has a single block, and its scaling is divided by the count of
an hour.
-/

namespace Epic
namespace Consensus

open MachineInt

variable {ε : Type}

def windowOf (era1 : Bool) (prevAlgo : PoWType) : UInt64 :=
  if era1 then difficultyAdjustWindow else diffWindow prevAlgo

def averageScaling (window : List HeaderInfo) : ℚ := scalingSum window / window.length

structure NearWindow (ε : Type) (checks : Bool) (height : UInt64) (window : List HeaderInfo) : Prop where
  exists_scaling : ∃ (scale : UInt64) (s : UInt32),
    (secondaryPowScale checks height window : Outcome ε UInt64) = .ok scale
      ∧ (secondaryPowScaling checks height window : Outcome ε UInt32) = .ok s
      ∧ s.toNat = scale.toNat
      ∧ (averageScaling window / clampFactor.toNat - 1 ≤ s.toNat
            ∧ s.toNat ≤ averageScaling window * clampFactor.toNat
          ∨ s.toNat = minArScale.toNat)

def secondaryCount (window : List HeaderInfo) : Nat := (window.filter (·.isSecondary)).length

def rawScale (height : UInt64) (window : List HeaderInfo) : Nat :=
  scalingSum window * (secondaryPowRatio height).toNat
    / max 1 (adjustedCount (secondaryPowRatio height).toNat (secondaryCount window))

variable {checks : Bool} {height : UInt64} {window : List HeaderInfo}

theorem rawScale_le (height : UInt64) (hlen : window.length ≤ 60)
    : rawScale height window ≤ 60 * 4294967295 * 90 :=
  (Nat.div_le_self _ _).trans (Nat.mul_le_mul (scalingSum_le hlen) (secondaryPowRatio_le height))

theorem secondaryPowScale_ok (checks : Bool) (height : UInt64) (hlen : window.length ≤ 60)
    : (secondaryPowScale checks height window : Outcome ε UInt64)
        = .ok (UInt64.ofNat (max 13 (rawScale height window))) := by
  obtain ⟨adj, hadj, hval⟩ := adjCount_ok (ε := ε) checks height hlen
  rw [secondaryPowScale_eq checks height hlen, hadj, Outcome.ok_bind, hval]
  rfl

theorem nearWindow_iff (hlen : window.length ≤ 60)
    : NearWindow ε checks height window
        ↔
      max 13 (rawScale height window) < 2 ^ 32
        ∧ (averageScaling window / 2 - 1 ≤ (max 13 (rawScale height window) : Nat)
              ∧ (max 13 (rawScale height window) : Nat) ≤ averageScaling window * 2
            ∨ max 13 (rawScale height window) = 13) := by
  have hok := secondaryPowScale_ok (ε := ε) checks height hlen
  have hcast : (secondaryPowScaling checks height window : Outcome ε UInt32)
      = .ok (UInt64.ofNat (max 13 (rawScale height window))).toUInt32 := by
    rw [secondaryPowScaling_eq_cast, hok, Outcome.ok_bind]
  have hle := rawScale_le height hlen
  have htoNat : (UInt64.ofNat (max 13 (rawScale height window))).toNat = max 13 (rawScale height window) :=
    UInt64.toNat_ofNat_of_lt' (by unfold UInt64.size; omega)
  have hval : (UInt64.ofNat (max 13 (rawScale height window))).toUInt32.toNat
      = max 13 (rawScale height window) % 2 ^ 32 := by
    rw [UInt64.toNat_toUInt32, htoNat]
  have hclamp : ((clampFactor.toNat : Nat) : ℚ) = 2 := by
    rw [show clampFactor.toNat = 2 from rfl, Nat.cast_ofNat]
  have hmin : minArScale.toNat = 13 := rfl
  constructor
  . rintro ⟨scale, s, hscale, hs, hsame, hnear⟩
    obtain rfl := Outcome.ok.inj (hscale.symm.trans hok)
    obtain rfl := Outcome.ok.inj (hs.symm.trans hcast)
    rw [hclamp, hsame, htoNat, hmin] at hnear
    rw [hval, htoNat] at hsame
    exact ⟨by omega, hnear⟩
  . rintro ⟨hlt, hnear⟩
    refine ⟨_, _, hok, hcast, ?_, ?_⟩
    . rw [hval, htoNat, Nat.mod_eq_of_lt hlt]
    . rw [hval, Nat.mod_eq_of_lt hlt, hclamp, hmin]
      exact hnear

section

variable {pct count sum bound : Nat} (hpct : 0 < pct)
include hpct

theorem mul_le_of_le_adjustedCount (hbound : bound * pct ≤ adjustedCount pct count)
    : sum * pct / max 1 (adjustedCount pct count) * bound ≤ sum := by
  have hdiv := Nat.div_mul_le_self (sum * pct) (max 1 (adjustedCount pct count))
  have hle : sum * pct / max 1 (adjustedCount pct count) * (bound * pct) ≤ sum * pct :=
    (Nat.mul_le_mul_left _ (hbound.trans (Nat.le_max_right _ _))).trans hdiv
  rw [← Nat.mul_assoc] at hle
  exact Nat.le_of_mul_le_mul_right hle hpct

theorem lt_mul_of_adjustedCount_le (hpos : 0 < bound) (hbound : adjustedCount pct count ≤ bound * pct)
    : sum < (sum * pct / max 1 (adjustedCount pct count) + 1) * bound := by
  have hmax : max 1 (adjustedCount pct count) ≤ bound * pct :=
    Nat.max_le.mpr ⟨Nat.mul_pos hpos hpct, hbound⟩
  have hlt : sum * pct < (sum * pct / max 1 (adjustedCount pct count) + 1) * (bound * pct) :=
    ((Nat.div_lt_iff_lt_mul (by omega)).mp (Nat.lt_succ_self _)).trans_le (Nat.mul_le_mul_left _ hmax)
  rw [← Nat.mul_assoc] at hlt
  exact Nat.lt_of_mul_lt_mul_right hlt

end

theorem secondaryPowRatio_pos (h : 13 < rawScale height window)
    : 0 < (secondaryPowRatio height).toNat := by
  rw [Nat.pos_iff_ne_zero]
  intro hzero
  rw [rawScale, hzero, Nat.mul_zero, Nat.zero_div] at h
  exact absurd h (by decide)

theorem near_of_hour (height : UInt64) (hlen : window.length = 60)
    : averageScaling window / 2 - 1 ≤ (max 13 (rawScale height window) : Nat)
          ∧ (max 13 (rawScale height window) : Nat) ≤ averageScaling window * 2
        ∨ max 13 (rawScale height window) = 13 := by
  by_cases hmin : rawScale height window ≤ 13
  . exact .inr (Nat.max_eq_left hmin)
  have hpct := secondaryPowRatio_pos (Nat.not_le.mp hmin)
  have hupper : rawScale height window * 30 ≤ scalingSum window :=
    mul_le_of_le_adjustedCount hpct (by unfold adjustedCount; omega)
  have hlower : scalingSum window < (rawScale height window + 1) * 120 :=
    lt_mul_of_adjustedCount_le hpct (by decide) (by unfold adjustedCount; omega)
  have hupper : (rawScale height window : ℚ) * 30 ≤ scalingSum window := by exact_mod_cast hupper
  have hlower : (scalingSum window : ℚ) ≤ (rawScale height window + 1) * 120 := by exact_mod_cast hlower.le
  rw [Nat.max_eq_right (by omega), averageScaling, hlen]
  push_cast
  exact .inl ⟨by linarith, by linarith⟩

theorem not_near_of_block (hlen : window.length = 1) (hmin : 13 < rawScale height window)
    : ¬ averageScaling window / 2 - 1 ≤ (max 13 (rawScale height window) : Nat) := by
  have hpct := secondaryPowRatio_pos hmin
  have hupper : rawScale height window * 55 ≤ scalingSum window :=
    mul_le_of_le_adjustedCount hpct (by unfold adjustedCount; omega)
  have hupper : (rawScale height window : ℚ) * 55 ≤ scalingSum window := by exact_mod_cast hupper
  have hmin' : (13 : ℚ) < rawScale height window := by exact_mod_cast hmin
  rw [Nat.max_eq_right hmin.le, averageScaling, hlen]
  push_cast
  intro h
  linarith

theorem windowOf_cases (era1 : Bool) (prevAlgo : PoWType)
    : windowOf era1 prevAlgo = difficultyAdjustWindow ∨ windowOf era1 prevAlgo = 1 := by
  cases era1 <;> cases prevAlgo <;> decide

theorem scaling_near_window_iff (env : Env) (height : UInt64) (era1 : Bool) (prevAlgo : PoWType)
    (cursor diffData : List HeaderInfo) (hcursor : cursor ≠ [])
    (hv : (Global.difficultyDataToVector env (fun k => .ok (cursor.take k)) (windowOf era1 prevAlgo)
      : Outcome ε _) = .ok diffData)
    : NearWindow ε env.overflowChecks height (diffData.drop 1)
        ↔
      scalingSum (diffData.drop 1) * (secondaryPowRatio height).toNat
        < (if windowOf era1 prevAlgo = difficultyAdjustWindow then 2 ^ 32 else 14)
          * max 1 (adjustedCount (secondaryPowRatio height).toNat (secondaryCount (diffData.drop 1))) := by
  have hfits : (windowOf era1 prevAlgo).toNat + 1 < 2 ^ 64 := by
    rcases windowOf_cases era1 prevAlgo with hwindow | hwindow <;> (rw [hwindow]; decide)
  obtain ⟨simulated, hok, hlength, -⟩ := Global.difficultyDataToVector_ok (ε := ε) env hcursor hfits
  obtain rfl := Outcome.ok.inj (hok.symm.trans hv)
  have hlen : ((Global.alignTimestamps (cursor.take ((windowOf era1 prevAlgo).toNat + 1))
      ++ simulated).reverse.drop 1).length = (windowOf era1 prevAlgo).toNat := by
    rw [List.length_drop, List.length_reverse, hlength]
    rfl
  generalize (Global.alignTimestamps (cursor.take ((windowOf era1 prevAlgo).toNat + 1))
    ++ simulated).reverse.drop 1 = window at hlen ⊢
  rw [← Nat.div_lt_iff_lt_mul (by omega)]
  change _ ↔ rawScale height window < _
  rcases windowOf_cases era1 prevAlgo with hwindow | hwindow
  . rw [hwindow] at hlen
    rw [nearWindow_iff (by rw [hlen]; decide), if_pos hwindow]
    constructor
    . rintro ⟨hlt, -⟩
      omega
    . exact fun hlt => ⟨by omega, near_of_hour height hlen⟩
  . rw [hwindow] at hlen
    rw [nearWindow_iff (by rw [hlen]; decide), if_neg (by rw [hwindow]; decide)]
    constructor
    . rintro ⟨hlt, hnear⟩
      by_contra hge
      have hmin : 13 < rawScale height window := by omega
      rcases hnear with ⟨hnear, -⟩ | heq
      . exact not_near_of_block hlen hmin hnear
      . omega
    . intro hlt
      exact ⟨by omega, .inr (by omega)⟩

namespace Sample

-- a chain whose latest block has the scaling of the genesis
def latest : HeaderInfo := ⟨1000000, ⟨DifficultyNumber.number 10000⟩, 7936, false, 60⟩

def afterHash : List HeaderInfo := [{ latest with timestamp := 999940 }, latest]

def hour : List HeaderInfo := (Global.alignTimestamps (List.replicate 61 latest)).reverse

end Sample

theorem scaling_near_window_iff_first_era
    : NearWindow String true 1 (Sample.hour.drop 1) := by
  refine (scaling_near_window_iff (Transparent.env .mainnet) 1 true .randomX (List.replicate 61 Sample.latest)
    Sample.hour (by decide) (by decide +kernel)).mpr ?_
  decide +kernel

theorem scaling_after_hash_leaves_window
    : (Global.difficultyDataToVector (Transparent.env .mainnet)
          (fun k => .ok ([Sample.latest, Sample.latest].take k)) (windowOf false .randomX) : Outcome String _)
        = .ok Sample.afterHash
      ∧ (secondaryPowScaling true 1 (Sample.afterHash.drop 1) : Outcome String UInt32) = .ok 143
      ∧ averageScaling (Sample.afterHash.drop 1) = 7936 := by
  refine ⟨by decide, by decide, ?_⟩
  simp [averageScaling, scalingSum, Sample.afterHash, Sample.latest]

end Consensus
end Epic
