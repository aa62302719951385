import Epic.Core.Consensus.Difficulty
import Epic.Core.Transparent

/-!
This module contains the weight of a graph as a number: a power of two of the distance between its size
and the base size, times the bits of its size that have not expired yet. The distance is taken in both
directions.
-/

namespace Epic
namespace Consensus

open MachineInt

variable {ε : Type}

-- the least size of graphs for the expiry, with the patch to use cuckatoo19
def leastBits (ct : ChainTypes) : Nat :=
  if Global.minEdgeBits ct = 19 then
    (Global.minEdgeBits ct).toNat + 12
  else
    (Global.minEdgeBits ct).toNat

def expiryUnit (height : Nat) : Nat := if 880000 < height then 52416000 else 524160

def expiryOf (ct : ChainTypes) (height edgeBits : Nat) : Nat :=
  2 ^ (edgeBits - leastBits ct) * expiryUnit height

def bitsLeft (ct : ChainTypes) (height edgeBits : Nat) : Nat :=
  if expiryOf ct height edgeBits ≤ height then
    edgeBits - (1 + (height - expiryOf ct height edgeBits) / 10080)
  else
    edgeBits

def distanceToBase (ct : ChainTypes) (edgeBits : Nat) : Nat :=
  max (edgeBits - (Global.baseEdgeBits ct).toNat) ((Global.baseEdgeBits ct).toNat - edgeBits)

def weightOf (ct : ChainTypes) (height edgeBits : Nat) : Nat :=
  2 ^ (distanceToBase ct edgeBits + 1) * bitsLeft ct height edgeBits

theorem bitsLeft_le (ct : ChainTypes) (height edgeBits : Nat)
    : bitsLeft ct height edgeBits ≤ edgeBits := by
  unfold bitsLeft
  split
  . exact Nat.sub_le _ _
  . exact Nat.le_refl _

theorem expiryUnit_pos (height : Nat)
    : 0 < expiryUnit height := by
  unfold expiryUnit
  split <;> decide

theorem expiryOf_mono (ct : ChainTypes) (height : Nat) (hab : a ≤ b)
    : expiryOf ct height a ≤ expiryOf ct height b :=
  Nat.mul_le_mul_right _ (Nat.pow_le_pow_right (by decide) (Nat.sub_le_sub_right hab _))

theorem bitsLeft_mono (ct : ChainTypes) (height : Nat) (hab : a ≤ b)
    : bitsLeft ct height a ≤ bitsLeft ct height b := by
  have hexpiry := expiryOf_mono ct height hab
  unfold bitsLeft
  split
  . split
    . have hdiv : (height - expiryOf ct height b) / 10080 ≤ (height - expiryOf ct height a) / 10080 :=
        Nat.div_le_div_right (by omega)
      omega
    . omega
  . split
    . omega
    . exact hab

theorem bitsOverMin_lt (h : expiryOf ct height edgeBits < 2 ^ 64)
    : edgeBits - leastBits ct < 46 := by
  by_contra hge
  have hunit : 524160 ≤ expiryUnit height := by
    unfold expiryUnit
    split <;> decide
  have hpow : 2 ^ 46 ≤ 2 ^ (edgeBits - leastBits ct) := Nat.pow_le_pow_right (by decide) (by omega)
  have hle : 2 ^ 46 * 524160 ≤ expiryOf ct height edgeBits := Nat.mul_le_mul hpow hunit
  omega

theorem distanceToBase_lt
    (h : expiryOf ct height edgeBits < 2 ^ 64)
    : distanceToBase ct edgeBits < 53 := by
  have hover := bitsOverMin_lt h
  have hleast : leastBits ct ≤ (Global.baseEdgeBits ct).toNat + 7 := by
    cases ct <;> decide
  have hbase : (Global.baseEdgeBits ct).toNat ≤ 24 := by
    cases ct <;> decide
  unfold distanceToBase
  omega

theorem weightOf_lt (h : expiryOf ct height edgeBits < 2 ^ 64)
    : weightOf ct height edgeBits < 2 ^ 64 := by
  have hover := bitsOverMin_lt h
  have hdistance := distanceToBase_lt h
  have hbits := bitsLeft_le ct height edgeBits
  have hleast : leastBits ct ≤ 31 := by
    cases ct <;> decide
  calc weightOf ct height edgeBits
      ≤ 2 ^ 53 * 76 := Nat.mul_le_mul (Nat.pow_le_pow_right (by decide) (by omega)) (by omega)
    _ < 2 ^ 64 := by decide

section

variable {env : Env} {height : UInt64} {edgeBits : UInt8}

theorem expiredEdgeBits_ok (checks : Bool) (height : UInt64) (edgeBits : UInt8) (expiry : UInt64)
    : ∃ xpr, (expiredEdgeBits checks height edgeBits expiry : Outcome ε UInt64) = .ok xpr
        ∧ xpr.toNat
            = if expiry.toNat ≤ height.toNat then
                edgeBits.toNat - (1 + (height.toNat - expiry.toNat) / 10080)
              else
                edgeBits.toNat := by
  have hheight := height.toNat_lt
  have hweek : weekHeight.toNat = 10080 := rfl
  have hone : (1 : UInt64).toNat = 1 := rfl
  unfold expiredEdgeBits
  simp only [ge_iff_le, UInt64.le_iff_toNat_le]
  split
  . next hle =>
    have hloss : ((height - expiry) / weekHeight).toNat = (height.toNat - expiry.toNat) / 10080 := by
      rw [UInt64.toNat_div, UInt64.toNat_sub_of_le _ _ (UInt64.le_iff_toNat_le.mpr hle), hweek]
    have hfits : (1 : UInt64).toNat + ((height - expiry) / weekHeight).toNat < 2 ^ 64 := by
      rw [hloss, hone]
      omega
    refine ⟨saturatingSub edgeBits.toUInt64 (1 + (height - expiry) / weekHeight), ?_, ?_⟩
    . rw [sub_eq_ok hle, Outcome.ok_bind, add_eq_ok hfits]
      rfl
    . rw [toNat_saturatingSub, UInt64.toNat_add, Nat.mod_eq_of_lt hfits, hloss, hone,
        UInt8.toNat_toUInt64]
  . exact ⟨_, rfl, UInt8.toNat_toUInt64 _⟩

theorem toNat_expiryUnit (height : UInt64)
    : (if height > 880000 then yearHeight * 100 else yearHeight).toNat = expiryUnit height.toNat := by
  have hpatch : (880000 : UInt64).toNat = 880000 := rfl
  unfold expiryUnit
  simp only [gt_iff_lt, UInt64.lt_iff_toNat_lt, hpatch]
  split <;> rfl

theorem toNat_bitsOverMin (ct : ChainTypes) (edgeBits : UInt8)
    : (saturatingSub edgeBits
          (if Global.minEdgeBits ct = 19 then Global.minEdgeBits ct + 12 else Global.minEdgeBits ct)).toNat
        = edgeBits.toNat - leastBits ct := by
  rw [toNat_saturatingSub8]
  congr 1
  cases ct <;> rfl

theorem toNat_distance (ct : ChainTypes) (edgeBits : UInt8)
    : (if edgeBits > Global.baseEdgeBits ct then
          edgeBits - Global.baseEdgeBits ct
        else
          Global.baseEdgeBits ct - edgeBits).toNat
        = distanceToBase ct edgeBits.toNat := by
  unfold distanceToBase
  split
  . next hgt =>
    rw [gt_iff_lt, UInt8.lt_iff_toNat_lt] at hgt
    rw [UInt8.toNat_sub_of_le _ _ (UInt8.le_iff_toNat_le.mpr hgt.le)]
    omega
  . next hle =>
    rw [gt_iff_lt, UInt8.lt_iff_toNat_lt, Nat.not_lt] at hle
    rw [UInt8.toNat_sub_of_le _ _ (UInt8.le_iff_toNat_le.mpr hle)]
    omega

variable (env) in
theorem graphWeight_eq_ok (hexpiry : expiryOf env.chainType height.toNat edgeBits.toNat < 2 ^ 64)
    : (graphWeight env height edgeBits : Outcome ε UInt64)
        = .ok (UInt64.ofNat (weightOf env.chainType height.toNat edgeBits.toNat)) := by
  have hover : edgeBits.toNat - leastBits env.chainType < 64 := (bitsOverMin_lt hexpiry).trans (by decide)
  have hdistance := distanceToBase_lt hexpiry
  have hweight := weightOf_lt hexpiry
  have htwo : (2 : UInt64).toNat = 2 := rfl
  have hpow : (UInt64.ofNat (2 ^ (edgeBits.toNat - leastBits env.chainType))).toNat
      = 2 ^ (edgeBits.toNat - leastBits env.chainType) :=
    UInt64.toNat_ofNat_of_lt' (Nat.pow_lt_pow_right (by decide) hover)
  have hfactor : 2 * 2 ^ distanceToBase env.chainType edgeBits.toNat < 2 ^ 64 := by
    rw [← Nat.pow_succ']
    exact Nat.pow_lt_pow_right (by decide) (by omega)
  unfold graphWeight
  dsimp only
  rw [toNat_bitsOverMin, shl_one_eq_ok hover, Outcome.ok_bind,
    mul_eq_ok (by rw [hpow, toNat_expiryUnit]; exact hexpiry), Outcome.ok_bind]
  obtain ⟨xpr, hxpr, hval⟩ := expiredEdgeBits_ok (ε := ε) env.overflowChecks height edgeBits
    (UInt64.ofNat (2 ^ (edgeBits.toNat - leastBits env.chainType))
      * if height > 880000 then yearHeight * 100 else yearHeight)
  unfold expiryOf at hexpiry
  rw [UInt64.toNat_mul, hpow, toNat_expiryUnit, Nat.mod_eq_of_lt hexpiry] at hval
  have hval : xpr.toNat = bitsLeft env.chainType height.toNat edgeBits.toNat := hval
  have hprod : (UInt64.ofNat (2 * 2 ^ distanceToBase env.chainType edgeBits.toNat)).toNat * xpr.toNat
      = weightOf env.chainType height.toNat edgeBits.toNat := by
    rw [UInt64.toNat_ofNat_of_lt' hfactor, hval, weightOf, Nat.pow_succ']
  rw [hxpr, Outcome.ok_bind, toNat_distance, shl_eq_ok (by omega) (by rw [htwo]; exact hfactor),
    Outcome.ok_bind, htwo, mul_eq_ok (by rw [hprod]; exact hweight)]
  apply congrArg Outcome.ok
  apply UInt64.toNat_inj.mp
  rw [UInt64.toNat_mul, hprod, Nat.mod_eq_of_lt hweight, UInt64.toNat_ofNat_of_lt' hweight]

theorem expiryOf_lt_of_graphWeight (hchecks : env.overflowChecks = true)
    (h : (graphWeight env height edgeBits : Outcome ε UInt64) = .ok weight)
    : expiryOf env.chainType height.toNat edgeBits.toNat < 2 ^ 64 := by
  unfold graphWeight at h
  dsimp only at h
  rw [toNat_bitsOverMin, hchecks, Outcome.bind_eq_ok] at h
  obtain ⟨unit, hunit, h⟩ := h
  have hover : edgeBits.toNat - leastBits env.chainType < 64 := by
    rw [← returns_shl_iff (ε := ε) (a := (1 : UInt64)), hunit]
    trivial
  rw [shl_one_eq_ok hover, Outcome.ok.injEq] at hunit
  rw [← hunit, Outcome.bind_eq_ok] at h
  obtain ⟨expiry, hexpiry, -⟩ := h
  have hfits := fits_of_mul hexpiry
  rwa [UInt64.toNat_ofNat_of_lt' (Nat.pow_lt_pow_right (by decide) hover), toNat_expiryUnit] at hfits

end

/-!
A larger graph weighs at least as much if it is at least as far from the base size.
-/

structure WeighsAtMost (ε : Type) (env : Env) (height : UInt64) (a b : UInt8) : Prop where
  exists_weights : ∃ weight weight',
    (∀ checks, (graphWeight { env with overflowChecks := checks } height a : Outcome ε UInt64) = .ok weight)
      ∧
    (∀ checks, (graphWeight { env with overflowChecks := checks } height b : Outcome ε UInt64) = .ok weight')
      ∧
    weight ≤ weight'

theorem weightOf_mono (hab : a ≤ b)
    (h : (Global.baseEdgeBits ct).toNat ≤ a ∨ a = b ∨ 2 * (Global.baseEdgeBits ct).toNat ≤ a + b)
    : weightOf ct height a ≤ weightOf ct height b := by
  have hdistance : distanceToBase ct a ≤ distanceToBase ct b := by
    unfold distanceToBase
    omega
  exact Nat.mul_le_mul (Nat.pow_le_pow_right (by decide) (by omega)) (bitsLeft_mono ct height hab)

theorem weightOf_zero (ct : ChainTypes) (edgeBits : Nat)
    : weightOf ct 0 edgeBits = 2 ^ (distanceToBase ct edgeBits + 1) * edgeBits := by
  have hpos : 0 < expiryOf ct 0 edgeBits := Nat.mul_pos (Nat.two_pow_pos _) (expiryUnit_pos 0)
  rw [weightOf, bitsLeft, if_neg (by omega)]

theorem weightOf_lt_of_nearer (hmin : (Global.minEdgeBits ct).toNat ≤ a)
    (hab : a < b) (hbase : a < (Global.baseEdgeBits ct).toNat)
    (hsum : a + b < 2 * (Global.baseEdgeBits ct).toNat)
    : weightOf ct 0 b < weightOf ct 0 a := by
  have hnearer : distanceToBase ct b < distanceToBase ct a := by
    unfold distanceToBase
    omega
  have hdouble : b < 2 * a := by
    have hbounds : 2 * (Global.baseEdgeBits ct).toNat ≤ 3 * (Global.minEdgeBits ct).toNat := by
      cases ct <;> decide
    omega
  rw [weightOf_zero, weightOf_zero]
  calc 2 ^ (distanceToBase ct b + 1) * b
      < 2 ^ (distanceToBase ct b + 1) * (2 * a) := Nat.mul_lt_mul_of_pos_left hdouble (Nat.two_pow_pos _)
    _ = 2 ^ (distanceToBase ct b + 2) * a := by rw [← Nat.mul_assoc, ← Nat.pow_succ]
    _ ≤ 2 ^ (distanceToBase ct a + 1) * a :=
      Nat.mul_le_mul_right _ (Nat.pow_le_pow_right (by decide) (Nat.succ_le_succ hnearer))

theorem larger_graphs_weigh_at_least_iff (env : Env) (a b : UInt8) (hmin : Global.minEdgeBits env.chainType ≤ a)
    (hab : a ≤ b) (hb : b ≤ 63)
    : (∀ height, WeighsAtMost ε env height a b)
        ↔
      (Global.baseEdgeBits env.chainType ≤ a
          ∨ a = b
          ∨ 2 * (Global.baseEdgeBits env.chainType).toNat ≤ a.toNat + b.toNat)
        ∧ 2 ^ (b.toNat - leastBits env.chainType) * 52416000 < 2 ^ 64 := by
  rw [UInt8.le_iff_toNat_le] at hmin hab hb ⊢
  constructor
  . intro h
    constructor
    . obtain ⟨weight, weight', hweight, hweight', hle⟩ := h 0
      have hfits (edgeBits : UInt8) {weight : UInt64}
          (h : ∀ checks, (graphWeight { env with overflowChecks := checks } 0 edgeBits
            : Outcome ε UInt64) = .ok weight)
          : weight.toNat = weightOf env.chainType 0 edgeBits.toNat := by
        have hexpiry := expiryOf_lt_of_graphWeight rfl (h true)
        have heq := Outcome.ok.inj ((h true).symm.trans (graphWeight_eq_ok _ hexpiry))
        rw [heq, UInt64.toNat_ofNat_of_lt' (weightOf_lt hexpiry)]
        rfl
      rw [UInt64.le_iff_toNat_le, hfits a hweight, hfits b hweight'] at hle
      by_contra hnot
      simp only [not_or, Nat.not_le] at hnot
      have hne : a.toNat ≠ b.toNat := fun heq => hnot.2.1 (UInt8.toNat_inj.mp heq)
      have hlt := weightOf_lt_of_nearer hmin (by omega) hnot.1 hnot.2.2
      omega
    . obtain ⟨-, weight', -, hweight', -⟩ := h 880001
      exact expiryOf_lt_of_graphWeight rfl (hweight' true)
  . rintro ⟨hsizes, hexpiry⟩ height
    have hlater : expiryOf env.chainType height.toNat b.toNat < 2 ^ 64 := by
      refine Nat.lt_of_le_of_lt (Nat.mul_le_mul_left _ ?_) hexpiry
      unfold expiryUnit
      split <;> decide
    have hearlier : expiryOf env.chainType height.toNat a.toNat < 2 ^ 64 :=
      (expiryOf_mono _ _ hab).trans_lt hlater
    refine ⟨.ofNat (weightOf env.chainType height.toNat a.toNat),
      .ofNat (weightOf env.chainType height.toNat b.toNat),
      fun checks => graphWeight_eq_ok { env with overflowChecks := checks } hearlier,
      fun checks => graphWeight_eq_ok { env with overflowChecks := checks } hlater, ?_⟩
    rw [UInt64.le_iff_toNat_le, UInt64.toNat_ofNat_of_lt' (weightOf_lt hearlier),
      UInt64.toNat_ofNat_of_lt' (weightOf_lt hlater)]
    refine weightOf_mono hab (hsizes.imp_right (Or.imp_left ?_))
    rintro rfl
    rfl

theorem larger_graphs_weigh_at_least_iff_cuckatoo31
    : Global.minEdgeBits .mainnet ≤ 31
        ∧ WeighsAtMost String (Transparent.env .mainnet) 880001 31 32 :=
  ⟨by decide, (larger_graphs_weigh_at_least_iff (Transparent.env .mainnet) 31 32 (by decide) (by decide)
    (by decide)).mpr ⟨.inl (by decide), by decide⟩ 880001⟩

theorem cuckatoo19_outweighs_cuckatoo24
    : (graphWeight (Transparent.env .mainnet) 0 19 : Outcome String UInt64) = .ok 1216
        ∧ (graphWeight (Transparent.env .mainnet) 0 24 : Outcome String UInt64) = .ok 48 := by
  decide

end Consensus
end Epic
