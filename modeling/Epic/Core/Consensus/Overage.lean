import Epic.Core.Consensus.Emission
import Epic.Core.Transparent
import Mathlib.Algebra.BigOperators.Ring.Finset

/-!
This module contains the accounting of the foundation levy: it is withheld from the reward of every block
and paid in one sum at the multiples of the foundation height.
-/

namespace Epic
namespace Consensus

open MachineInt

variable {ε : Type}

def lastLevyHeight : UInt64 := foundationLevyEra1 + 8 * foundationLevyEra2Onwards

theorem toNat_lastLevyHeight
    : lastLevyHeight.toNat = 4377600 := by
  decide

theorem toNat_lastHalvingHeight
    : lastHalvingHeight.toNat = 139196160 := by
  decide

theorem foundationHeight_dvd (ct : ChainTypes)
    : 0 < (foundationHeight ct).toNat
        ∧ (foundationHeight ct).toNat ≤ 1440
        ∧ (foundationHeight ct).toNat ∣ lastLevyHeight.toNat := by
  cases ct <;> decide

theorem blockTotalReward_ok (checks : Bool) (h : height ≤ lastHalvingHeight)
    : ∃ total, (blockTotalRewardAtHeight checks height : Outcome ε UInt64) = .ok total := by
  obtain ⟨total, htotal, -⟩ := blockTotalReward_eq_rateAt (ε := ε) checks h
  exact ⟨total, htotal⟩

section

variable {env : Env}

theorem rewardFoundation_ok (env : Env) (h : height ≤ lastHalvingHeight)
    : ∃ levy, (rewardFoundationAtHeight env height : Outcome ε UInt64) = .ok levy
        ∧ (lastLevyHeight < height → levy = 0)
        ∧ (0 < height → height ≤ lastLevyHeight → ∃ total index,
            (blockTotalRewardAtHeight env.overflowChecks height : Outcome ε UInt64) = .ok total
              ∧ index < foundationLevy.length
              ∧ levy = mulLevy total index) := by
  obtain ⟨total, htotal⟩ := blockTotalReward_ok (ε := ε) env.overflowChecks h
  have hera : foundationLevyEra1.toNat = 172800 := by decide
  have hlen : foundationLevyEra2Onwards.toNat = 525600 := by decide
  have hmax : (4294967295 : UInt64).toNat = 4294967295 := by decide
  have hcount : foundationLevy.length = 9 := rfl
  have hlast := toNat_lastLevyHeight
  rw [UInt64.le_iff_toNat_le, toNat_lastHalvingHeight] at h
  simp only [UInt64.lt_iff_toNat_lt, UInt64.le_iff_toNat_le, hlast]
  unfold rewardFoundationAtHeight
  split
  . next hle =>
    rw [UInt64.le_iff_toNat_le] at hle
    exact ⟨0, rfl, fun _ => rfl, fun hpos => absurd hpos (Nat.not_lt.mpr hle)⟩
  split
  . next hle =>
    rw [UInt64.le_iff_toNat_le] at hle
    rw [htotal]
    exact ⟨_, rfl, by omega, fun _ _ => ⟨total, 0, rfl, by decide, rfl⟩⟩
  . next hgt =>
    rw [UInt64.le_iff_toNat_le] at hgt
    have hone : (1 : UInt64).toNat = 1 := rfl
    have hoffset : (height - foundationLevyEra1).toNat = height.toNat - 172800 := by
      rw [UInt64.toNat_sub_of_le _ _ (UInt64.le_iff_toNat_le.mpr (by omega)), hera]
    have hindex : ((height - foundationLevyEra1 - 1) / foundationLevyEra2Onwards).toNat
        = (height.toNat - 172801) / 525600 := by
      rw [UInt64.toNat_div, UInt64.toNat_sub_of_le _ _ (UInt64.le_iff_toNat_le.mpr (by omega)),
        hoffset, hlen, hone, Nat.sub_sub]
    have hnext : ((height - foundationLevyEra1 - 1) / foundationLevyEra2Onwards + 1).toNat
        = (height.toNat - 172801) / 525600 + 1 := by
      rw [UInt64.toNat_add, hindex, hone, Nat.mod_eq_of_lt (by omega)]
    rw [sub_eq_ok (by omega), Outcome.ok_bind, sub_eq_ok (by omega), Outcome.ok_bind,
      add_eq_ok (by omega), Outcome.ok_bind]
    rw [show Outcome.assert (_ < (4294967295 : UInt64)) = .ok () from
      Outcome.assert_eq_ok.mpr (by rw [UInt64.lt_iff_toNat_lt]; omega), Outcome.ok_bind]
    rw [hnext, htotal]
    split
    . next hlt =>
      exact ⟨_, rfl, by omega, fun _ _ => ⟨total, _, rfl, hlt, rfl⟩⟩
    . next hge =>
      exact ⟨0, rfl, fun _ => rfl, by omega⟩

theorem rewardFoundation_ne_zero (env : Env) (hpos : 0 < height) (hle : height ≤ lastLevyHeight)
    : (rewardFoundationAtHeight env height : Outcome ε UInt64) ≠ .ok 0 := by
  intro hzero
  have hlast : height.toNat ≤ 4377600 := toNat_lastLevyHeight ▸ UInt64.le_iff_toNat_le.mp hle
  have hhalving : height ≤ lastHalvingHeight := by
    rw [UInt64.le_iff_toNat_le, toNat_lastHalvingHeight]
    omega
  obtain ⟨levy, hlevy, -, hera⟩ := rewardFoundation_ok (ε := ε) env hhalving
  obtain ⟨total, index, htotal, hindex, hval⟩ := hera hpos hle
  rw [hlevy] at hzero
  injection hzero with hzero
  have hera5 : height ≤ blockEra5 := by
    rw [UInt64.le_iff_toNat_le, show blockEra5.toNat = 4642560 by decide]
    omega
  obtain ⟨total', htotal', hrate⟩ := blockTotalReward_of_era (ε := ε) env.overflowChecks hera5
  rw [htotal] at htotal'
  injection htotal' with htotal'
  have hrates : ∀ rate ∈ eras.map Prod.snd, 400 ≤ rate := by decide
  refine mulLevy_ne_zero ?_ hindex (hval.symm.trans hzero)
  rw [htotal']
  exact hrates _ (Schedule.mem_of_rateAt hrate)

structure Amounts (ε : Type) (env : Env) (n : Nat) (total levy : Nat → UInt64) : Prop where
  totalAt : ∀ i ≤ n,
    (blockTotalRewardAtHeight env.overflowChecks (.ofNat i) : Outcome ε UInt64) = .ok (total i)
  levyAt : ∀ i ≤ n, (rewardFoundationAtHeight env (.ofNat i) : Outcome ε UInt64) = .ok (levy i)
  levy_eq_zero : ∀ i ≤ n, lastLevyHeight.toNat < i → levy i = 0

theorem toNat_ofNat_of_le (hn : n ≤ lastHalvingHeight.toNat) (hi : i ≤ n)
    : (UInt64.ofNat i).toNat = i := by
  rw [toNat_lastHalvingHeight] at hn
  exact UInt64.toNat_ofNat_of_lt' (by unfold UInt64.size; omega)

theorem Amounts.exists (env : Env) (hn : n ≤ lastHalvingHeight.toNat)
    : ∃ total levy, Amounts ε env n total levy := by
  have hle : ∀ i ≤ n, UInt64.ofNat i ≤ lastHalvingHeight := by
    intro i hi
    rw [UInt64.le_iff_toNat_le, toNat_ofNat_of_le hn hi]
    omega
  have htotal : ∀ i, ∃ total, i ≤ n →
      (blockTotalRewardAtHeight env.overflowChecks (.ofNat i) : Outcome ε UInt64) = .ok total := by
    intro i
    by_cases hi : i ≤ n
    . obtain ⟨total, htotal⟩ := blockTotalReward_ok (ε := ε) env.overflowChecks (hle i hi)
      exact ⟨total, fun _ => htotal⟩
    . exact ⟨0, fun h => absurd h hi⟩
  have hlevy : ∀ i, ∃ levy, i ≤ n →
      (rewardFoundationAtHeight env (.ofNat i) : Outcome ε UInt64) = .ok levy
        ∧ (lastLevyHeight.toNat < i → levy = 0) := by
    intro i
    by_cases hi : i ≤ n
    . obtain ⟨levy, hlevy, hzero, -⟩ := rewardFoundation_ok (ε := ε) env (hle i hi)
      rw [UInt64.lt_iff_toNat_lt, toNat_ofNat_of_le hn hi] at hzero
      exact ⟨levy, fun _ => ⟨hlevy, hzero⟩⟩
    . exact ⟨0, fun h => absurd h hi⟩
  choose total htotal using htotal
  choose levy hlevy using hlevy
  exact ⟨total, levy, htotal, fun i hi => (hlevy i hi).1, fun i hi => (hlevy i hi).2⟩

section

variable {total levy : Nat → UInt64} {n : Nat} (hn : n ≤ lastHalvingHeight.toNat)
  (h : Amounts ε env n total levy)
include hn h

omit hn in
theorem Amounts.levy_le (hi : i ≤ n)
    : (levy i).toNat ≤ (total i).toNat ∧ (total i).toNat ≤ 1600000000 :=
  ⟨rewardFoundation_le_total (h.totalAt i hi) (h.levyAt i hi), blockTotalReward_le (h.totalAt i hi)⟩

theorem Amounts.levy_ne_zero (hi : i ≤ n) (hpos : 0 < i) (hlast : i ≤ lastLevyHeight.toNat)
    : levy i ≠ 0 := by
  intro hzero
  have hheight := toNat_ofNat_of_le hn hi
  have hlevy := h.levyAt i hi
  rw [hzero] at hlevy
  refine rewardFoundation_ne_zero env ?_ ?_ hlevy
  . rw [UInt64.lt_iff_toNat_lt, hheight]
    exact hpos
  . rw [UInt64.le_iff_toNat_le, hheight]
    exact hlast

theorem Amounts.sumRewardFoundation (hi : i ≤ n) (hcount : count ≤ i)
    (hsmall : count ≤ 1440)
    : ∃ sum, (sumRewardFoundation env (.ofNat i) count : Outcome ε UInt64) = .ok sum
        ∧ sum.toNat = ∑ j ∈ Finset.Ioc (i - count) i, (levy j).toNat
        ∧ sum.toNat ≤ count * 1600000000 := by
  induction count generalizing i with
  | zero => exact ⟨0, rfl, by simp, Nat.le_refl _⟩
  | succ count ih =>
    obtain ⟨i, rfl⟩ : ∃ i', i = i' + 1 := Nat.exists_eq_add_one.mpr (by omega)
    obtain ⟨sum, hsum, hval, hle⟩ := ih (i := i) (by omega) (by omega) (by omega)
    obtain ⟨hlevy, hmax⟩ := h.levy_le hi
    have hprev : UInt64.ofNat (i + 1) - 1 = .ofNat i := by
      apply UInt64.toNat_inj.mp
      rw [UInt64.toNat_sub_of_le]
      . rw [toNat_ofNat_of_le hn hi, toNat_ofNat_of_le hn (by omega)]
        rfl
      . rw [UInt64.le_iff_toNat_le, toNat_ofNat_of_le hn hi]
        exact Nat.le_add_left 1 i
    refine ⟨sum + levy (i + 1), ?_, ?_, ?_⟩
    . rw [Consensus.sumRewardFoundation, hprev, hsum, Outcome.ok_bind, h.levyAt _ hi, Outcome.ok_bind]
      exact add_eq_ok (by omega)
    . rw [UInt64.toNat_add, Nat.mod_eq_of_lt (by omega), hval,
        show i + 1 - (count + 1) = i - count by omega, Finset.sum_Ioc_succ_top (by omega)]
    . rw [UInt64.toNat_add, Nat.mod_eq_of_lt (by omega)]
      omega

theorem Amounts.isFoundationHeight (hi : i ≤ n) (hpos : 0 < i)
    : (isFoundationHeight env (.ofNat i) : Outcome ε Bool)
        =
      .ok (decide ((foundationHeight env.chainType).toNat ∣ i ∧ i ≤ lastLevyHeight.toNat)) := by
  have hheight := toNat_ofNat_of_le hn hi
  have hmod : UInt64.ofNat i % foundationHeight env.chainType = 0
      ↔ (foundationHeight env.chainType).toNat ∣ i := by
    rw [← UInt64.toNat_inj, UInt64.toNat_mod, hheight]
    exact Nat.dvd_iff_mod_eq_zero.symm
  have hgt : UInt64.ofNat i > 0 := UInt64.lt_iff_toNat_lt.mpr (by rw [hheight]; exact hpos)
  have hlevy : levy i ≠ 0 ↔ i ≤ lastLevyHeight.toNat := by
    constructor
    . intro hne
      by_contra hlast
      exact hne (h.levy_eq_zero i hi (by omega))
    . exact h.levy_ne_zero hn hi hpos
  unfold Consensus.isFoundationHeight
  split
  . next hmultiple =>
    rw [h.levyAt i hi, Outcome.ok_bind, Outcome.pure_eq_ok]
    congr 1
    rw [Bool.eq_iff_iff, bne_iff_ne, decide_eq_true_iff, hlevy]
    exact ⟨fun hlast => ⟨hmod.mp hmultiple.2, hlast⟩, And.right⟩
  . next hmultiple =>
    have hndvd : ¬ (foundationHeight env.chainType).toNat ∣ i :=
      fun hdvd => hmultiple ⟨hgt, hmod.mpr hdvd⟩
    rw [decide_eq_false (fun hboth => hndvd hboth.1)]

theorem Amounts.cumulativeRewardFoundation (hi : i ≤ n) (hpos : 0 < i)
    (hdvd : (foundationHeight env.chainType).toNat ∣ i) (hlast : i ≤ lastLevyHeight.toNat)
    : (cumulativeRewardFoundation env (.ofNat i) : Outcome ε UInt64)
        = Consensus.sumRewardFoundation env (.ofNat i) (foundationHeight env.chainType).toNat := by
  have hheight := toNat_ofNat_of_le hn hi
  have hle := Nat.le_of_dvd hpos hdvd
  have hone : (1 : UInt64).toNat = 1 := rfl
  have hbig := toNat_lastHalvingHeight
  have hdiff : (UInt64.ofNat i - foundationHeight env.chainType).toNat
      = i - (foundationHeight env.chainType).toNat := by
    rw [UInt64.toNat_sub_of_le, hheight]
    rw [UInt64.le_iff_toNat_le, hheight]
    exact hle
  have hstart : (UInt64.ofNat i - foundationHeight env.chainType + 1).toNat
      = i - (foundationHeight env.chainType).toNat + 1 := by
    rw [UInt64.toNat_add, hdiff, hone, Nat.mod_eq_of_lt (by omega)]
  have hcount : i + 1 - (i - (foundationHeight env.chainType).toNat + 1)
      = (foundationHeight env.chainType).toNat := by
    omega
  have hassert : (Outcome.assert (true = true) : Outcome ε Unit) = .ok () := rfl
  rw [Consensus.cumulativeRewardFoundation, h.isFoundationHeight hn hi hpos, Outcome.ok_bind,
    decide_eq_true ⟨hdvd, hlast⟩, hassert, Outcome.ok_bind]
  dsimp only
  rw [sub_eq_ok (by omega), Outcome.ok_bind, add_eq_ok (by omega), Outcome.ok_bind, hheight, hstart,
    hcount]

theorem Amounts.addRewardFoundation (hi : i ≤ n) (hpos : 0 < i)
    : ∃ foundation, (addRewardFoundation env (.ofNat i) : Outcome ε UInt64) = .ok foundation
        ∧ (foundation.toNat : ℤ)
            = Schedule.lump (foundationHeight env.chainType).toNat (fun j => (levy j).toNat) i
        ∧ foundation.toNat ≤ 1440 * 1600000000 := by
  obtain ⟨-, hday, hperiods⟩ := foundationHeight_dvd env.chainType
  rw [Consensus.addRewardFoundation, h.isFoundationHeight hn hi hpos, Outcome.ok_bind,
    Schedule.lump]
  split
  . next hpaid =>
    obtain ⟨hdvd, hlast⟩ := of_decide_eq_true hpaid
    obtain ⟨sum, hsum, hval, hmax⟩ := h.sumRewardFoundation hn hi (Nat.le_of_dvd hpos hdvd) hday
    rw [h.cumulativeRewardFoundation hn hi hpos hdvd hlast, hsum, if_pos hdvd]
    exact ⟨sum, rfl, by rw [hval]; exact Nat.cast_sum _ _, hmax.trans (Nat.mul_le_mul_right _ hday)⟩
  . next hpaid =>
    refine ⟨0, rfl, ?_, Nat.zero_le _⟩
    symm
    split
    . next hdvd =>
      -- after the last era all of the period is without a levy
      have hlast : ¬ i ≤ lastLevyHeight.toNat := fun hlast => hpaid (decide_eq_true ⟨hdvd, hlast⟩)
      have hgap : lastLevyHeight.toNat + (foundationHeight env.chainType).toNat ≤ i := by
        obtain ⟨a, ha⟩ := hperiods
        obtain ⟨b, rfl⟩ := hdvd
        have hlt : a < b := by
          by_contra hge
          exact hlast (ha ▸ Nat.mul_le_mul_left _ (by omega))
        rw [ha, ← Nat.mul_succ]
        exact Nat.mul_le_mul_left _ hlt
      apply Finset.sum_eq_zero
      intro j hj
      rw [Finset.mem_Ioc] at hj
      rw [h.levy_eq_zero j (by omega) (by omega)]
      rfl
    . rfl

omit hn in
theorem Amounts.rewardAtHeight (hi : i ≤ n)
    : ∃ reward, (rewardAtHeight env (.ofNat i) : Outcome ε UInt64) = .ok reward
        ∧ reward.toNat = (total i).toNat - (levy i).toNat := by
  obtain ⟨hle, -⟩ := h.levy_le hi
  refine ⟨total i - levy i, ?_, UInt64.toNat_sub_of_le _ _ (UInt64.le_iff_toNat_le.mpr hle)⟩
  rw [Consensus.rewardAtHeight, h.totalAt i hi, Outcome.ok_bind, h.levyAt i hi, Outcome.ok_bind]
  exact sub_eq_ok hle

theorem Amounts.sum_total_le (hi : i ≤ n)
    : ∑ j ∈ Finset.range (i + 1), ((total j).toNat : ℤ) ≤ 2100000000000000 := by
  have hrate : ∀ j ∈ Finset.range (i + 1),
      (total j).toNat ≤ (Schedule.rateAt (eras ++ halvings) j).getD 0 := by
    intro j hj
    have hjn : j ≤ n := by
      have := Finset.mem_range.mp hj
      omega
    have hheight := toNat_ofNat_of_le hn hjn
    have hlast : UInt64.ofNat j ≤ lastHalvingHeight := by
      rw [UInt64.le_iff_toNat_le, hheight]
      omega
    obtain ⟨reward, hreward, hrate⟩ := blockTotalReward_eq_rateAt (ε := ε) env.overflowChecks hlast
    rw [h.totalAt j hjn] at hreward
    injection hreward with hreward
    rw [hheight] at hrate
    rw [hrate, hreward]
    rfl
  have hsum := (Finset.sum_le_sum hrate).trans
    ((Schedule.sum_rateAt_le (i + 1)).trans total_rates_le)
  have hcap : 21000000 * epicBase.toNat = 2100000000000000 := by decide
  rw [hcap] at hsum
  exact_mod_cast hsum

theorem Amounts.totalOverageAtHeight (hi : i ≤ n)
    : ∃ sum : Int64, (totalOverageAtHeight env true i : Outcome ε Int64) = .ok sum
        ∧ 0 ≤ sum.toInt
        ∧ sum.toInt
            = Schedule.paid (foundationHeight env.chainType).toNat (fun j => (total j).toNat)
                (fun j => (levy j).toNat) i := by
  induction i with
  | zero =>
    obtain ⟨reward, hreward, hval⟩ := h.rewardAtHeight hi
    obtain ⟨-, hmax⟩ := h.levy_le hi
    have hlevy : (levy 0).toNat = 0 := by
      have := h.levyAt 0 hi
      injection this with this
      rw [← this]
      rfl
    have hint : reward.toInt64.toInt = (total 0).toNat := by
      rw [toInt_toInt64, if_pos (by omega)]
      omega
    refine ⟨reward.toInt64, ?_, by omega, hint⟩
    rw [Consensus.totalOverageAtHeight, if_pos rfl]
    exact congrArg (fun x => x >>= fun reward => pure reward.toInt64) hreward
  | succ i ih =>
    obtain ⟨sum, hsum, hnonneg, hpaid⟩ := ih (by omega)
    obtain ⟨reward, hreward, hval⟩ := h.rewardAtHeight hi
    obtain ⟨foundation, hfoundation, hlump, hsmall⟩ := h.addRewardFoundation hn hi (by omega)
    obtain ⟨hle, hmax⟩ := h.levy_le hi
    have hcap := h.sum_total_le hn hi
    have hbelow := Schedule.paid_le (foundationHeight env.chainType).toNat
      (fun j => (total j).toNat) (fun j => (levy j).toNat) (n := i + 1)
      (fun _ _ => Int.natCast_nonneg _)
    rw [Schedule.paid] at hbelow ⊢
    have hr : reward.toInt64.toInt = reward.toNat := by
      rw [toInt_toInt64, if_pos (by omega)]
    have hf : foundation.toInt64.toInt = foundation.toNat := by
      rw [toInt_toInt64, if_pos (by omega)]
    obtain ⟨both, hboth, hbothVal⟩ := add_ok (ε := ε) (a := reward.toInt64) (b := foundation.toInt64)
      env.overflowChecks (by simp only [Fits, toInt, lo, MachineInt.hi]; omega)
    simp only [toInt] at hbothVal
    obtain ⟨next, hnext, hnextVal⟩ := add_ok (ε := ε) (a := sum) (b := both)
      env.overflowChecks (by simp only [Fits, toInt, lo, MachineInt.hi]; omega)
    simp only [toInt] at hnextVal
    refine ⟨next, ?_, by omega, by omega⟩
    rw [Consensus.totalOverageAtHeight, hsum, Outcome.ok_bind, hreward, Outcome.ok_bind, hfoundation,
      Outcome.ok_bind, hboth, Outcome.ok_bind, hnext]

end

theorem total_overage_eq {h : Nat} (hh : h ≤ lastHalvingHeight.toNat)
    : ∃ (overage : Int64) (total levy : Nat → UInt64),
        Amounts ε env h total levy
          ∧
        (totalOverageAtHeight env true h : Outcome ε Int64) = .ok overage
          ∧
        if h % (foundationHeight env.chainType).toNat = 0 ∨ lastLevyHeight.toNat < h then
          overage.toInt = ∑ i ∈ Finset.range (h + 1), ((total i).toNat : ℤ)
        else
          overage.toInt = ∑ i ∈ Finset.range (h + 1), ((total i).toNat : ℤ)
            - ∑ i ∈ Finset.Ioc (h - h % (foundationHeight env.chainType).toNat) h,
                ((levy i).toNat : ℤ) := by
  obtain ⟨total, levy, hamounts⟩ := Amounts.exists (ε := ε) env hh
  obtain ⟨overage, hoverage, -, hpaid⟩ := hamounts.totalOverageAtHeight hh (Nat.le_refl h)
  have hstart : h / (foundationHeight env.chainType).toNat * (foundationHeight env.chainType).toNat
      = h - h % (foundationHeight env.chainType).toNat := by
    have := Nat.div_add_mod' h (foundationHeight env.chainType).toNat
    omega
  rw [Schedule.paid_eq, hstart] at hpaid
  refine ⟨overage, total, levy, hamounts, hoverage, ?_⟩
  split
  . next hnone =>
    have hpending : ∑ i ∈ Finset.Ioc (h - h % (foundationHeight env.chainType).toNat) h,
        ((levy i).toNat : ℤ) = 0 := by
      apply Finset.sum_eq_zero
      intro i hi
      rw [Finset.mem_Ioc] at hi
      rcases hnone with hmultiple | hlast
      . omega
      . -- the last multiple is not before the end of the last era
        obtain ⟨-, -, k, hk⟩ := foundationHeight_dvd env.chainType
        have hle : k ≤ h / (foundationHeight env.chainType).toNat := by
          rw [Nat.le_div_iff_mul_le (foundationHeight_dvd env.chainType).1, Nat.mul_comm]
          omega
        have hend := Nat.mul_le_mul_right (foundationHeight env.chainType).toNat hle
        rw [Nat.mul_comm k] at hend
        rw [hamounts.levy_eq_zero i hi.2 (by omega)]
        rfl
    rw [hpaid, hpending, sub_zero]
  . exact hpaid

end

-- two blocks after a payment
theorem total_overage_eq_seven
    : ∃ (overage : Int64) (total levy : Nat → UInt64),
        Amounts String (Transparent.env .automatedTesting) 7 total levy
          ∧
        totalOverageAtHeight (Transparent.env .automatedTesting) true 7
          = (.ok overage : Outcome String Int64)
          ∧
        overage.toInt = ∑ i ∈ Finset.range 8, ((total i).toNat : ℤ)
          - ∑ i ∈ Finset.Ioc 5 7, ((levy i).toNat : ℤ) :=
  total_overage_eq (by rw [toNat_lastHalvingHeight]; decide)

end Consensus
end Epic
