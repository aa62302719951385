import Epic.Core.Consensus.Reward
import Epic.Util.Schedule

/-!
This module contains the emission cap. The rewards follow a schedule of five eras and 64 halvings.
After the last of them the amount of the shift reaches the width of a word.
-/

namespace Epic
namespace Consensus

open MachineInt

variable {ε : Type}

def eras : List (Nat × Nat) :=
  [(480961, 1600000000), (676800, 800000000), (865440, 400000000), (1152000, 200000000),
    (1467360, 100000000)]

def halvings : List (Nat × Nat) := (List.range' 0 64).map fun exp => (2102400, 15625000 / 2 ^ exp)

-- the last height before the shift overflows
def lastHalvingHeight : UInt64 := blockEra5 + 64 * blockEra6Onwards

theorem blockTotalReward_of_era (checks : Bool) (h : height ≤ blockEra5)
    : ∃ reward, (blockTotalRewardAtHeight checks height : Outcome ε UInt64) = .ok reward
        ∧
      Schedule.rateAt eras height.toNat = some reward.toNat := by
  have hera1 : blockEra1.toNat = 480960 := by decide
  have hera2 : blockEra2.toNat = 1157760 := by decide
  have hera3 : blockEra3.toNat = 2023200 := by decide
  have hera4 : blockEra4.toNat = 3175200 := by decide
  have hera5 : blockEra5.toNat = 4642560 := by decide
  simp only [blockTotalRewardAtHeight, UInt64.le_iff_toNat_le, hera1, hera2, hera3, hera4, hera5]
    at h ⊢
  simp only [eras, Schedule.rateAt]
  split_ifs <;> first | omega | exact ⟨_, rfl, by decide⟩

theorem blockTotalReward_of_halving (hge : blockEra5 < height)
    (hle : height ≤ lastHalvingHeight)
    : (blockTotalRewardAtHeight checks height : Outcome ε UInt64)
        =
      .ok (baseRewardEra6Onwards / UInt64.ofNat (2 ^ ((height.toNat - 4642561) / 2102400))) := by
  have hera : blockEra5.toNat = 4642560 := by decide
  have hlast : lastHalvingHeight.toNat = 139196160 := by decide
  have hone : (1 : UInt64).toNat = 1 := by decide
  have hlen : blockEra6Onwards.toNat = 2102400 := by decide
  rw [UInt64.lt_iff_toNat_lt] at hge
  rw [UInt64.le_iff_toNat_le] at hle
  have hlater {era : UInt64} (h : era.toNat ≤ 4642560) : ¬ height ≤ era := by
    rw [UInt64.le_iff_toNat_le]
    omega
  have hoffset : (height - blockEra5).toNat = height.toNat - 4642560 := by
    rw [UInt64.toNat_sub_of_le _ _ (UInt64.le_iff_toNat_le.mpr (by omega)), hera]
  have hexp : ((height - blockEra5 - 1) / blockEra6Onwards).toNat
      = (height.toNat - 4642561) / 2102400 := by
    rw [UInt64.toNat_div, UInt64.toNat_sub_of_le _ _ (UInt64.le_iff_toNat_le.mpr (by omega)),
      hoffset, hlen, hone, Nat.sub_sub]
  have hlt : (height.toNat - 4642561) / 2102400 < 64 := by omega
  have hpow : (UInt64.ofNat (2 ^ ((height.toNat - 4642561) / 2102400))).toNat ≠ 0 := by
    rw [UInt64.toNat_ofNat_of_lt' (Nat.pow_lt_pow_right (by omega) hlt)]
    exact (Nat.two_pow_pos _).ne'
  unfold blockTotalRewardAtHeight
  rw [if_neg (hlater (by decide)), if_neg (hlater (by decide)), if_neg (hlater (by decide)),
    if_neg (hlater (by decide)), if_neg (hlater (by decide)), sub_eq_ok (by omega), Outcome.ok_bind,
    sub_eq_ok (by omega), Outcome.ok_bind]
  dsimp only
  rw [hexp, shl_one_eq_ok hlt, Outcome.ok_bind, div_eq_ok hpow]

theorem blockTotalReward_eq_rateAt (checks : Bool) (h : height ≤ lastHalvingHeight)
    : ∃ reward, (blockTotalRewardAtHeight checks height : Outcome ε UInt64) = .ok reward
        ∧
      Schedule.rateAt (eras ++ halvings) height.toNat = some reward.toNat := by
  have hera : blockEra5.toNat = 4642560 := by decide
  have hlast : lastHalvingHeight.toNat = 139196160 := by decide
  have hduration : Schedule.duration eras = 4642561 := by decide
  rw [Schedule.rateAt_append, hduration]
  rcases UInt64.lt_or_le blockEra5 height with hlt | hle
  . refine ⟨_, blockTotalReward_of_halving hlt h, ?_⟩
    rw [UInt64.lt_iff_toNat_lt] at hlt
    rw [UInt64.le_iff_toNat_le] at h
    have hexp : (height.toNat - 4642561) / 2102400 < 64 := by omega
    rw [if_neg (by omega), halvings, Schedule.rateAt_map_range (by omega), if_pos (by omega),
      UInt64.toNat_div, UInt64.toNat_ofNat_of_lt' (Nat.pow_lt_pow_right (by omega) hexp), Nat.zero_add]
    rfl
  . have hlength : height.toNat < 4642561 := by
      rw [UInt64.le_iff_toNat_le] at hle
      omega
    rw [if_pos hlength]
    exact blockTotalReward_of_era checks hle

theorem blockTotalReward_after_halvings
    : (blockTotalRewardAtHeight true 139196161 : Outcome ε UInt64) = .panic
        ∧
      (blockTotalRewardAtHeight false 139196160 : Outcome ε UInt64) = .ok 0
        ∧
      (blockTotalRewardAtHeight false 139196161 : Outcome ε UInt64) = .ok 15625000 := by
  refine ⟨rfl, rfl, rfl⟩

theorem pairwise_rates
    : ((eras ++ halvings).map Prod.snd).Pairwise (· ≥ ·) := by
  decide

theorem total_rates_le
    : Schedule.total (eras ++ halvings) ≤ 21000000 * epicBase.toNat := by
  decide

theorem emission_capped_iff (checks : Bool) (h : UInt64)
    : (∃ reward : Nat → UInt64,
        (∀ i ≤ h.toNat,
          (blockTotalRewardAtHeight checks (UInt64.ofNat i) : Outcome ε UInt64) = .ok (reward i))
          ∧
        (∀ i j, i ≤ j → j ≤ h.toNat → reward j ≤ reward i)
          ∧
        ∑ i ∈ Finset.range (h.toNat + 1), (reward i).toNat ≤ 21000000 * epicBase.toNat)
        ↔
      h ≤ lastHalvingHeight := by
  have hlast : lastHalvingHeight.toNat = 139196160 := by decide
  constructor
  . rintro ⟨reward, hreward, hantitone, -⟩
    by_contra hnot
    have hlt := UInt64.lt_iff_toNat_lt.mp (UInt64.not_le.mp hnot)
    have hbefore := hreward 139196160 (by omega)
    have hafter := hreward 139196161 (by omega)
    obtain ⟨hpanic, hzero, hagain⟩ := blockTotalReward_after_halvings (ε := ε)
    cases checks with
    | true =>
      -- with overflow checks there is no reward after the halvings
      have := hafter.symm.trans hpanic
      contradiction
    | false =>
      -- without them the reward starts over
      have hzero := Outcome.ok.inj (hbefore.symm.trans hzero)
      have hagain := Outcome.ok.inj (hafter.symm.trans hagain)
      have hle := hantitone 139196160 139196161 (by omega) (by omega)
      rw [hzero, hagain] at hle
      revert hle
      decide
  . intro hle
    rw [UInt64.le_iff_toNat_le] at hle
    have hrate {i : Nat} (hi : i ≤ h.toNat)
        : ∃ reward, (blockTotalRewardAtHeight checks (UInt64.ofNat i) : Outcome ε UInt64) = .ok reward
            ∧
          Schedule.rateAt (eras ++ halvings) i = some reward.toNat := by
      have hfits : (UInt64.ofNat i).toNat = i :=
        UInt64.toNat_ofNat_of_lt' (by unfold UInt64.size; omega)
      have hreward := blockTotalReward_eq_rateAt (ε := ε) checks
        (UInt64.le_iff_toNat_le.mpr (by rw [hfits]; omega))
      rwa [hfits] at hreward
    refine ⟨fun i => UInt64.ofNat ((Schedule.rateAt (eras ++ halvings) i).getD 0), ?_, ?_, ?_⟩
    . intro i hi
      obtain ⟨reward, hok, hsome⟩ := hrate hi
      simp [hok, hsome]
    . intro i j hij hj
      obtain ⟨reward, -, hsome⟩ := hrate (hij.trans hj)
      obtain ⟨reward', -, hsome'⟩ := hrate hj
      have hle := Schedule.rateAt_antitone pairwise_rates hij hsome hsome'
      simp only [hsome, hsome', Option.getD_some, UInt64.ofNat_toNat]
      exact UInt64.le_iff_toNat_le.mpr hle
    . apply (Finset.sum_le_sum _).trans ((Schedule.sum_rateAt_le (h.toNat + 1)).trans total_rates_le)
      intro i _
      exact Nat.mod_le _ _

theorem reward_undefined_or_grows
    : (blockTotalRewardAtHeight true 139196161 : Outcome String UInt64) = .panic
        ∧
      ∃ reward reward',
        (blockTotalRewardAtHeight false 139196160 : Outcome String UInt64) = .ok reward
          ∧
        (blockTotalRewardAtHeight false 139196161 : Outcome String UInt64) = .ok reward'
          ∧
        reward < reward' := by
  obtain ⟨hpanic, hzero, hagain⟩ := blockTotalReward_after_halvings (ε := String)
  exact ⟨hpanic, 0, 15625000, hzero, hagain, by decide⟩

end Consensus
end Epic
