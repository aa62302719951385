import Epic.Core.Global

/-!
This module contains the emission schedule: the block reward, the foundation levy and the overage of a
block.
-/

namespace Epic
namespace Consensus

open MachineInt

variable {ε : Type}

def epicBase : UInt64 := 100000000
def blockEra6Onwards : UInt64 := dayHeight * 1460
def baseRewardEra6Onwards : UInt64 := 15625000
def foundationLevyEra1 : UInt64 := dayHeight * 120
def foundationLevyEra2Onwards : UInt64 := dayHeight * 365

-- the nearest number with 53 significant bits, of two that are equally near the even one
def roundF64 (n : Nat) : Nat :=
  let ulp := 2 ^ (n.log2 - 52)
  let mantissa := n / ulp
  let rest := 2 * (n % ulp)
  if ulp < rest ∨ rest = ulp ∧ mantissa % 2 = 1 then
    (mantissa + 1) * ulp
  else
    mantissa * ulp

-- 0.0888, 0.0777, 0.0666, 0.0555, 0.0444, 0.0333, 0.0222, 0.0111, 0.0111 as mantissa and negated exponent
def foundationLevy : List (Nat × Nat) :=
  [(6398714350568001, 56), (5598875056747001, 56), (4799035762926001, 56), (7998392938210001, 57),
    (6398714350568001, 57), (4799035762926001, 57), (6398714350568001, 58), (6398714350568001, 59),
    (6398714350568001, 59)]

-- (reward as f64 * FOUNDATION_LEVY[index]) as u64
def mulLevy (reward : UInt64) (index : Nat) : UInt64 :=
  match foundationLevy[index]? with
  | some (mantissa, exp) => UInt64.ofNat (roundF64 (roundF64 reward.toNat * mantissa) / 2 ^ exp)
  | none => 0

-- the mantissas are the nearest ones
example : (foundationLevy.zip [888, 777, 666, 555, 444, 333, 222, 111, 111]).all (fun ((mantissa, exp), levy) =>
    2 ^ 52 ≤ mantissa ∧ mantissa < 2 ^ 53
      ∧ 2 * (10000 * mantissa) < 2 * (levy * 2 ^ exp) + 10000
      ∧ 2 * (levy * 2 ^ exp) < 2 * (10000 * mantissa) + 10000) := by decide

def blockTotalRewardAtHeight (checks : Bool) (height : UInt64) : Outcome ε UInt64 :=
  if height ≤ blockEra1 then
    .ok (16 * epicBase)
  else if height ≤ blockEra2 then
    .ok (8 * epicBase)
  else if height ≤ blockEra3 then
    .ok (4 * epicBase)
  else if height ≤ blockEra4 then
    .ok (2 * epicBase)
  else if height ≤ blockEra5 then
    .ok (1 * epicBase)
  else do
    let offset ← sub checks height blockEra5
    let heightWithOffset ← sub checks offset 1
    let exp := heightWithOffset / blockEra6Onwards
    let divisor ← shl checks 64 (1 : UInt64) exp.toNat
    div baseRewardEra6Onwards divisor

def foundationHeight (ct : ChainTypes) : UInt64 :=
  match ct with
  | .automatedTesting => 5
  | .userTesting => dayHeight
  | .floonet => dayHeight
  | .mainnet => dayHeight

def rewardFoundationAtHeight (env : Env) (height : UInt64) : Outcome ε UInt64 :=
  if height ≤ 0 then
    .ok 0
  else if height ≤ foundationLevyEra1 then do
    let blockTotalReward ← blockTotalRewardAtHeight env.overflowChecks height
    return mulLevy blockTotalReward 0
  else do
    let offset ← sub env.overflowChecks height foundationLevyEra1
    let heightWithOffset ← sub env.overflowChecks offset 1
    let index ← add env.overflowChecks (heightWithOffset / foundationLevyEra2Onwards) 1
    .assert (index < 4294967295)
    if index.toNat < foundationLevy.length then
      let blockTotalReward ← blockTotalRewardAtHeight env.overflowChecks height
      return mulLevy blockTotalReward index.toNat
    else
      return 0

def isFoundationHeight (env : Env) (height : UInt64) : Outcome ε Bool :=
  if height > 0 ∧ height % foundationHeight env.chainType = 0 then do
    let reward ← rewardFoundationAtHeight env height
    return reward != 0
  else
    .ok false

def foundationIndex (env : Env) (height : UInt64) : Outcome ε UInt64 :=
  if height > 0 then
    sub env.overflowChecks (height / foundationHeight env.chainType) 1
  else
    .panic

-- the heights from height - foundationHeight + 1 to height, by their distance to the last one
def sumRewardFoundation (env : Env) (height : UInt64) (count : Nat) : Outcome ε UInt64 :=
  match count with
  | 0 => .ok 0
  | count + 1 => do
    let sum ← sumRewardFoundation env (height - 1) count
    let reward ← rewardFoundationAtHeight env height
    add env.overflowChecks sum reward

def cumulativeRewardFoundation (env : Env) (height : UInt64) : Outcome ε UInt64 := do
  let isFoundation ← isFoundationHeight env height
  .assert (isFoundation = true)
  let fHeight := foundationHeight env.chainType
  let n ← sub env.overflowChecks height fHeight
  let n ← add env.overflowChecks n 1
  sumRewardFoundation env height (height.toNat + 1 - n.toNat)

def addRewardFoundation (env : Env) (height : UInt64) : Outcome ε UInt64 := do
  let isFoundation ← isFoundationHeight env height
  if isFoundation then
    cumulativeRewardFoundation env height
  else
    return 0

def rewardAtHeight (env : Env) (height : UInt64) : Outcome ε UInt64 := do
  let totalReward ← blockTotalRewardAtHeight env.overflowChecks height
  let levy ← rewardFoundationAtHeight env height
  sub env.overflowChecks totalReward levy

def reward (env : Env) (fee : UInt64) (height : UInt64) : Outcome ε UInt64 := do
  let reward ← rewardAtHeight env height
  return saturatingAdd reward fee

def rewardFoundation (env : Env) (fees : UInt64) (height : UInt64) : Outcome ε UInt64 := do
  let reward ← reward env fees height
  let foundation ← addRewardFoundation env height
  add env.overflowChecks reward foundation

-- (reward_at_height + add_reward_foundation) as i64, negated if that is possible
def overageAtHeight (env : Env) (height : UInt64) : Outcome ε Int64 := do
  let reward ← rewardAtHeight env height
  let foundation ← addRewardFoundation env height
  let sum ← add env.overflowChecks reward foundation
  let sum := sum.toInt64
  return if sum = Int64.minValue then 0 else -sum

def totalOverageAtHeight (env : Env) (genesisHadReward : Bool) (height : Nat) : Outcome ε Int64 :=
  match height with
  | 0 =>
    if genesisHadReward then do
      let reward ← rewardAtHeight env 0
      return reward.toInt64
    else
      .ok 0
  | height + 1 => do
    let sum ← totalOverageAtHeight env genesisHadReward height
    let reward ← rewardAtHeight env (UInt64.ofNat (height + 1))
    let foundation ← addRewardFoundation env (UInt64.ofNat (height + 1))
    let both ← add env.overflowChecks reward.toInt64 foundation.toInt64
    add env.overflowChecks sum both

def totalOverage (env : Env) (genesisHadReward : Bool) (height : UInt64) : Outcome ε Int64 := do
  let sum ← totalOverageAtHeight env genesisHadReward height.toNat
  return if sum = Int64.minValue then 0 else -sum

/-!
The overage is exact: the rewards are far below the limits of the integers they are computed with. The
levy is a part of the reward, since rounding at most doubles or halves a number.
-/

theorem roundF64_le (n : Nat)
    : roundF64 n ≤ 2 * n := by
  have hn := Nat.div_add_mod' n (2 ^ (n.log2 - 52))
  have hnext := Nat.add_one_mul (n / 2 ^ (n.log2 - 52)) (2 ^ (n.log2 - 52))
  unfold roundF64
  dsimp only
  split <;> omega

theorem le_roundF64 (n : Nat)
    : n ≤ 2 * roundF64 n := by
  rcases Nat.eq_zero_or_pos n with rfl | hpos
  . exact Nat.zero_le _
  have hn := Nat.div_add_mod' n (2 ^ (n.log2 - 52))
  have hulp : 2 ^ (n.log2 - 52) ≤ n :=
    (Nat.pow_le_pow_right (by decide) (Nat.sub_le _ _)).trans (Nat.log2_self_le hpos.ne')
  have hmantissa := Nat.mul_le_mul_right (2 ^ (n.log2 - 52)) (Nat.div_pos hulp (Nat.two_pow_pos _))
  have hnext := Nat.add_one_mul (n / 2 ^ (n.log2 - 52)) (2 ^ (n.log2 - 52))
  have hrest := Nat.mod_lt n (Nat.two_pow_pos (n.log2 - 52))
  unfold roundF64
  dsimp only
  split <;> omega

theorem toNat_mulLevy {mantissa exp : Nat} (h : foundationLevy[index]? = some (mantissa, exp)) (reward : UInt64)
    : (mulLevy reward index).toNat = roundF64 (roundF64 reward.toNat * mantissa) / 2 ^ exp
        ∧ (mulLevy reward index).toNat ≤ reward.toNat := by
  have hpart : ∀ l ∈ foundationLevy, 4 * l.1 ≤ 2 ^ l.2 := by decide
  have hle : roundF64 (roundF64 reward.toNat * mantissa) / 2 ^ exp ≤ reward.toNat := by
    apply Nat.div_le_of_le_mul
    calc roundF64 (roundF64 reward.toNat * mantissa)
      _ ≤ 2 * (roundF64 reward.toNat * mantissa) := roundF64_le _
      _ ≤ 2 * (2 * reward.toNat * mantissa) :=
        Nat.mul_le_mul_left _ (Nat.mul_le_mul_right _ (roundF64_le _))
      _ = 4 * mantissa * reward.toNat := by grind
      _ ≤ 2 ^ exp * reward.toNat := Nat.mul_le_mul_right _ (hpart _ (List.mem_of_getElem? h))
  have hval : (mulLevy reward index).toNat = roundF64 (roundF64 reward.toNat * mantissa) / 2 ^ exp := by
    unfold mulLevy
    rw [h]
    exact UInt64.toNat_ofNat_of_lt' (hle.trans_lt reward.toNat_lt)
  exact ⟨hval, hval ▸ hle⟩

theorem mulLevy_le (reward : UInt64) (index : Nat)
    : (mulLevy reward index).toNat ≤ reward.toNat := by
  cases h : foundationLevy[index]? with
  | some l => exact (toNat_mulLevy h reward).2
  | none =>
    unfold mulLevy
    rw [h]
    exact Nat.zero_le _

theorem mulLevy_ne_zero {reward : UInt64} (hreward : 400 ≤ reward.toNat) (hindex : index < foundationLevy.length)
    : mulLevy reward index ≠ 0 := by
  have hpart : ∀ l ∈ foundationLevy, 2 ^ l.2 ≤ 100 * l.1 := by decide
  obtain ⟨⟨mantissa, exp⟩, hsome⟩ : ∃ l, foundationLevy[index]? = some l :=
    ⟨_, List.getElem?_eq_getElem hindex⟩
  have hlevy : 2 ^ exp ≤ 100 * mantissa := hpart _ (List.mem_of_getElem? hsome)
  have hfactor := Nat.mul_le_mul_right mantissa (hreward.trans (le_roundF64 reward.toNat))
  have hproduct := le_roundF64 (roundF64 reward.toNat * mantissa)
  rw [Nat.mul_assoc 2] at hfactor
  intro hzero
  have hval := (toNat_mulLevy hsome reward).1
  rw [hzero] at hval
  exact (Nat.div_pos (by omega) (Nat.two_pow_pos exp)).ne hval

theorem blockTotalReward_le {checks : Bool} {height reward : UInt64}
    (h : (blockTotalRewardAtHeight checks height : Outcome ε UInt64) = .ok reward)
    : reward.toNat ≤ 1600000000 := by
  unfold blockTotalRewardAtHeight at h
  split at h
  . injection h with h
    rw [← h]
    decide
  split at h
  . injection h with h
    rw [← h]
    decide
  split at h
  . injection h with h
    rw [← h]
    decide
  split at h
  . injection h with h
    rw [← h]
    decide
  split at h
  . injection h with h
    rw [← h]
    decide
  simp only [Outcome.bind_eq_ok] at h
  obtain ⟨offset, -, heightWithOffset, -, divisor, -, h⟩ := h
  rw [toNat_of_div h]
  apply (Nat.div_le_self _ _).trans
  decide

section

variable {env : Env}

theorem rewardFoundation_le
    (h : (rewardFoundationAtHeight env height : Outcome ε UInt64) = .ok levy)
    : levy.toNat = 0
        ∨
      ∃ total,
        (blockTotalRewardAtHeight env.overflowChecks height : Outcome ε UInt64) = .ok total
          ∧
        levy.toNat ≤ total.toNat := by
  unfold rewardFoundationAtHeight at h
  split at h
  . injection h with h
    exact .inl (by rw [← h]; rfl)
  split at h
  . simp only [Outcome.bind_eq_ok, Outcome.pure_eq_ok, Outcome.ok.injEq] at h
    obtain ⟨total, htotal, rfl⟩ := h
    exact .inr ⟨total, htotal, mulLevy_le _ _⟩
  simp only [Outcome.bind_eq_ok] at h
  obtain ⟨offset, -, heightWithOffset, -, index, -, -, -, h⟩ := h
  split at h
  . simp only [Outcome.bind_eq_ok, Outcome.pure_eq_ok, Outcome.ok.injEq] at h
    obtain ⟨total, htotal, rfl⟩ := h
    exact .inr ⟨total, htotal, mulLevy_le _ _⟩
  . simp only [Outcome.pure_eq_ok, Outcome.ok.injEq] at h
    exact .inl (by rw [← h]; rfl)

theorem rewardFoundation_le_total
    (htotal : (blockTotalRewardAtHeight env.overflowChecks height : Outcome ε UInt64) = .ok total)
    (h : (rewardFoundationAtHeight env height : Outcome ε UInt64) = .ok levy)
    : levy.toNat ≤ total.toNat := by
  rcases rewardFoundation_le h with hzero | ⟨total', htotal', hle⟩
  . omega
  . rw [htotal, Outcome.ok.injEq] at htotal'
    rwa [htotal']

theorem rewardFoundation_le_max
    (h : (rewardFoundationAtHeight env height : Outcome ε UInt64) = .ok levy)
    : levy.toNat ≤ 1600000000 := by
  rcases rewardFoundation_le h with hzero | ⟨total, htotal, hle⟩
  . omega
  . have := blockTotalReward_le htotal
    omega

theorem sumRewardFoundation_le {height sum : UInt64} {count : Nat} (hcount : count ≤ 1440)
    (h : (sumRewardFoundation env height count : Outcome ε UInt64) = .ok sum)
    : sum.toNat ≤ count * 1600000000 := by
  induction count generalizing height sum with
  | zero =>
    injection h with h
    rw [← h]
    exact Nat.zero_le _
  | succ count ih =>
    simp only [sumRewardFoundation, Outcome.bind_eq_ok] at h
    obtain ⟨rest, hrest, reward, hreward, hadd⟩ := h
    have hle := ih (by omega) hrest
    have hmax := rewardFoundation_le_max hreward
    rw [toNat_of_add hadd (by omega)]
    omega

theorem addRewardFoundation_le
    (h : (addRewardFoundation env height : Outcome ε UInt64) = .ok foundation)
    : foundation.toNat ≤ 1440 * 1600000000 := by
  unfold addRewardFoundation at h
  simp only [Outcome.bind_eq_ok] at h
  obtain ⟨isFoundation, hfoundation, h⟩ := h
  split at h
  . next htrue =>
    have hmultiple : height > 0 ∧ height % foundationHeight env.chainType = 0 := by
      unfold isFoundationHeight at hfoundation
      split at hfoundation
      . assumption
      . injection hfoundation with hfalse
        rw [htrue] at hfalse
        contradiction
    simp only [cumulativeRewardFoundation, Outcome.bind_eq_ok] at h
    obtain ⟨-, -, -, -, diff, hdiff, n, hn, h⟩ := h
    have hperiod : 0 < (foundationHeight env.chainType).toNat
        ∧ (foundationHeight env.chainType).toNat ≤ 1440 := by
      cases env.chainType <;> decide
    have hheight := height.toNat_lt
    have hle : (foundationHeight env.chainType).toNat ≤ height.toNat := by
      have hdvd : height.toNat % (foundationHeight env.chainType).toNat = 0 := by
        rw [← UInt64.toNat_mod, hmultiple.2]
        rfl
      have hpos : 0 < height.toNat := UInt64.lt_iff_toNat_lt.mp hmultiple.1
      exact Nat.le_of_dvd hpos (Nat.dvd_of_mod_eq_zero hdvd)
    have hdiff := toNat_of_sub hdiff hle
    have hn := toNat_of_add hn (by
      have : (1 : UInt64).toNat = 1 := rfl
      omega)
    have hone : (1 : UInt64).toNat = 1 := rfl
    have hcount : height.toNat + 1 - n.toNat ≤ 1440 := by omega
    have hsum := sumRewardFoundation_le hcount h
    exact hsum.trans (Nat.mul_le_mul_right _ hcount)
  . simp only [Outcome.pure_eq_ok, Outcome.ok.injEq] at h
    rw [← h]
    exact Nat.zero_le _

theorem rewardAtHeight_le {height reward : UInt64}
    (h : (rewardAtHeight env height : Outcome ε UInt64) = .ok reward)
    : reward.toNat ≤ 1600000000 := by
  simp only [rewardAtHeight, Outcome.bind_eq_ok] at h
  obtain ⟨total, htotal, levy, hfoundation, hsub⟩ := h
  have hmax := blockTotalReward_le htotal
  rw [toNat_of_sub hsub (rewardFoundation_le_total htotal hfoundation)]
  omega

theorem toInt_overage_of_lt
    (h : (overageAtHeight env height : Outcome ε Int64) = .ok overage)
    : ∃ reward foundation,
        (rewardAtHeight env height : Outcome ε UInt64) = .ok reward
          ∧
        (addRewardFoundation env height : Outcome ε UInt64) = .ok foundation
          ∧
        (reward.toNat + foundation.toNat < 2 ^ 63 →
          overage.toInt = -(reward.toNat + foundation.toNat : Int)) := by
  simp only [overageAtHeight, Outcome.bind_eq_ok, Outcome.pure_eq_ok, Outcome.ok.injEq] at h
  obtain ⟨reward, hreward, foundation, hfoundation, sum, hsum, hoverage⟩ := h
  refine ⟨reward, foundation, hreward, hfoundation, fun hlt => ?_⟩
  have hsum := toNat_of_add hsum (by omega)
  have hint : sum.toInt64.toInt = reward.toNat + foundation.toNat := by
    rw [toInt_toInt64, if_pos (by omega)]
    omega
  rw [← hoverage]
  rw [if_neg (by
    intro hmin
    rw [hmin] at hint
    have : Int64.minValue.toInt = -9223372036854775808 := by decide
    omega)]
  rw [Int64.toInt_neg, hint, Int.bmod_eq_of_le (by omega) (by omega)]

theorem toInt_overageAtHeight
    (h : (overageAtHeight env height : Outcome ε Int64) = .ok overage)
    : ∃ reward foundation,
        (rewardAtHeight env height : Outcome ε UInt64) = .ok reward
          ∧
        (addRewardFoundation env height : Outcome ε UInt64) = .ok foundation
          ∧
        overage.toInt = -(reward.toNat + foundation.toNat : Int) := by
  obtain ⟨reward, foundation, hreward, hfoundation, htoInt⟩ := toInt_overage_of_lt h
  have hr := rewardAtHeight_le hreward
  have hf := addRewardFoundation_le hfoundation
  exact ⟨reward, foundation, hreward, hfoundation, htoInt (by omega)⟩

end

end Consensus
end Epic
