import Epic.Core.Committed
import Mathlib.Algebra.BigOperators.Group.List.Basic
import Mathlib.Algebra.Order.Ring.Int
import Mathlib.Tactic.Abel

/-!
This module contains the reading of commitments as elements of an abelian group, and what the kernel
sum check computes in the group.
-/

namespace Epic

/--
Commitments as the elements of an abelian group. A sum of commitments is the sum in the group, and a
value is committed to without blinding by a multiple of one element.
-/
structure Points (secp : Secp) (G : Type) [AddCommGroup G] where
  point : Commitment → G
  unit : G
  injective : Function.Injective point
  point_zero : point commitToZeroValue = 0
  commitSum : ∀ pos neg, ∃ c,
    secp.commitSum pos neg = some c ∧ point c = (pos.map point).sum - (neg.map point).sum
  commitValue : ∀ v, ∃ c, secp.commitValue v = some c ∧ point c = v.toNat • unit

namespace Points

variable {secp : Secp} {G : Type} [AddCommGroup G] (g : Points secp G)

def sum (l : List Commitment) : G := (l.map g.point).sum

@[simp]
theorem sum_nil
    : g.sum [] = 0 := rfl

@[simp]
theorem sum_cons (c : Commitment) (l : List Commitment)
    : g.sum (c :: l) = g.point c + g.sum l := by
  simp [sum]

@[simp]
theorem sum_append (l k : List Commitment)
    : g.sum (l ++ k) = g.sum l + g.sum k := by
  simp [sum]

theorem sum_filter_ne_zero (l : List Commitment)
    : g.sum (l.filter (· ≠ commitToZeroValue)) = g.sum l := by
  induction l with
  | nil => rfl
  | cons c l ih =>
    by_cases hc : c = commitToZeroValue
    . rw [List.filter_cons_of_neg (by simpa using hc), sum_cons, ih, hc, g.point_zero, zero_add]
    . rw [List.filter_cons_of_pos (by simpa using hc), sum_cons, sum_cons, ih]

theorem commitSum_eq_some
    : secp.commitSum pos neg = some c ↔ g.point c = g.sum pos - g.sum neg := by
  obtain ⟨c', hc', hpoint⟩ := g.commitSum pos neg
  rw [hc', Option.some.injEq]
  constructor
  . rintro rfl
    exact hpoint
  . intro h
    exact g.injective (hpoint.trans h.symm)

theorem exists_point_eq (pos neg : List Commitment)
    : ∃ c, g.point c = g.sum pos - g.sum neg := by
  obtain ⟨c, -, hpoint⟩ := g.commitSum pos neg
  exact ⟨c, hpoint⟩

theorem sumCommits_eq_ok
    : sumCommits secp pos neg = .ok c ↔ g.point c = g.sum pos - g.sum neg := by
  unfold sumCommits
  rw [Outcome.okOr_eq_ok, g.commitSum_eq_some, sum_filter_ne_zero, sum_filter_ne_zero]

theorem checkedAbs_eq_some (h : overage ≠ Int64.minValue)
    : ∃ v, Committed.checkedAbs overage = some v ∧ v.toNat = overage.toInt.natAbs := by
  have hlo := overage.le_toInt
  have hhi := overage.toInt_lt
  refine ⟨_, if_neg h, ?_⟩
  exact UInt64.toNat_ofNat_of_lt' (by unfold UInt64.size; omega)

theorem sumCommitments_eq_ok {c : Committed}
    : c.sumCommitments secp overage = .ok r
        ↔
      overage ≠ Int64.minValue
        ∧ g.point r = g.sum c.outputsCommitted + overage.toInt • g.unit - g.sum c.inputsCommitted := by
  unfold Committed.sumCommitments
  by_cases hzero : overage = 0
  . subst hzero
    simp only [ne_eq, not_true_eq_false, ↓reduceIte]
    rw [g.sumCommits_eq_ok, Int64.toInt_zero, zero_zsmul, add_zero]
    exact ⟨fun h => ⟨by decide, h⟩, And.right⟩
  by_cases hmin : overage = Int64.minValue
  . have hnone : Committed.checkedAbs overage = none := if_pos hmin
    simp only [ne_eq, hzero, not_false_eq_true, ↓reduceIte, hnone]
    simp [Outcome.okOr, hmin]
  obtain ⟨v, hv, habs⟩ := checkedAbs_eq_some hmin
  obtain ⟨excess, hexcess, hpoint⟩ := g.commitValue v
  rw [habs, ← natCast_zsmul] at hpoint
  simp only [ne_eq, hzero, not_false_eq_true, ↓reduceIte, hv, hexcess, Outcome.okOr, Outcome.unwrap,
    Outcome.ok_bind, hmin, true_and]
  split
  . next hneg =>
    have hneg : overage.toInt < 0 := by simpa using Int64.lt_iff_toInt_lt.mp hneg
    rw [show (overage.toInt.natAbs : ℤ) = -overage.toInt by omega, neg_zsmul] at hpoint
    rw [g.sumCommits_eq_ok, sum_append, sum_cons, sum_nil, hpoint]
    have heq : g.sum c.outputsCommitted - (g.sum c.inputsCommitted + (-(overage.toInt • g.unit) + 0))
        = g.sum c.outputsCommitted + overage.toInt • g.unit - g.sum c.inputsCommitted := by abel
    rw [heq]
  . next hneg =>
    have hneg : ¬ overage.toInt < 0 := by
      intro hlt
      exact hneg (Int64.lt_iff_toInt_lt.mpr (by simpa using hlt))
    rw [show (overage.toInt.natAbs : ℤ) = overage.toInt by omega] at hpoint
    rw [g.sumCommits_eq_ok, sum_append, sum_cons, sum_nil, hpoint, add_zero]

theorem sumKernelExcesses_eq_ok {c : Committed}
    : c.sumKernelExcesses secp offset = .ok r
        ↔
      g.point r.1 = g.sum c.kernelsCommitted
        ∧ ∃ commits, Committed.offsetCommits secp offset = .ok commits
          ∧ g.point r.2 = g.point r.1 + g.sum commits := by
  unfold Committed.sumKernelExcesses
  simp only [Outcome.bind_eq_ok, Outcome.pure_eq_ok, Outcome.okOr_eq_ok, Outcome.ok.injEq,
    g.sumCommits_eq_ok, g.commitSum_eq_some, sum_cons, sum_nil, sub_zero]
  constructor
  . rintro ⟨kernelSum, hsum, commits, hcommits, plus, hplus, rfl⟩
    exact ⟨hsum, commits, hcommits, hplus⟩
  . rintro ⟨hsum, commits, hcommits, hplus⟩
    exact ⟨r.1, hsum, commits, hcommits, r.2, hplus, rfl⟩

theorem verifyKernelSums_eq_ok {c : Committed}
    : c.verifyKernelSums secp overage offset = .ok r
        ↔
      overage ≠ Int64.minValue
        ∧ g.point r.1 = g.sum c.outputsCommitted + overage.toInt • g.unit - g.sum c.inputsCommitted
        ∧ g.point r.2 = g.sum c.kernelsCommitted
        ∧ ∃ commits, Committed.offsetCommits secp offset = .ok commits
          ∧ g.point r.1 = g.point r.2 + g.sum commits := by
  unfold Committed.verifyKernelSums
  simp only [Outcome.bind_eq_ok, Outcome.pure_eq_ok, Outcome.require_eq_ok, Outcome.ok.injEq,
    g.sumCommitments_eq_ok, g.sumKernelExcesses_eq_ok]
  constructor
  . rintro ⟨utxoSum, ⟨hmin, hutxo⟩, ⟨kernelSum, plus⟩, ⟨hkernel, commits, hcommits, hplus⟩, -, heq, rfl⟩
    exact ⟨hmin, hutxo, hkernel, commits, hcommits, heq ▸ hplus⟩
  . rintro ⟨hmin, hutxo, hkernel, commits, hcommits, heq⟩
    exact ⟨r.1, ⟨hmin, hutxo⟩, (r.2, r.1), ⟨hkernel, commits, hcommits, heq⟩, (), rfl, rfl⟩

theorem verifyKernelSums_ok {c : Committed} (hmin : overage ≠ Int64.minValue)
    (hcommits : Committed.offsetCommits secp offset = .ok commits)
    (heq : g.sum c.outputsCommitted + overage.toInt • g.unit - g.sum c.inputsCommitted
      = g.sum c.kernelsCommitted + g.sum commits)
    : ∃ r, c.verifyKernelSums secp overage offset = .ok r := by
  obtain ⟨kernelSum, hkernel⟩ := g.exists_point_eq c.kernelsCommitted []
  obtain ⟨utxoSum, hutxo⟩ := g.exists_point_eq (c.kernelsCommitted ++ commits) []
  rw [sum_nil, sub_zero] at hkernel hutxo
  rw [sum_append] at hutxo
  refine ⟨(utxoSum, kernelSum), g.verifyKernelSums_eq_ok.mpr ⟨hmin, ?_, hkernel, commits, hcommits, ?_⟩⟩
  . exact hutxo.trans heq.symm
  . exact hutxo.trans (by rw [hkernel])

end Points

end Epic
