import Epic.Core.Committed
import Mathlib.Algebra.BigOperators.Group.List.Basic
import Mathlib.Algebra.Order.Ring.Int
import Mathlib.Tactic.Abel

/-!
This module contains the reading of commitments as pairs of a value and a blinding scalar, and what
the kernel sum check says about the values.
-/

namespace Epic

/--
A reading of the commitments under which the library adds them componentwise.
-/
structure Opening (secp : Secp) (S : Type) [AddCommGroup S] where
  pair : Commitment → ℤ × S
  scalar : BlindingFactor → S
  pair_zero : pair commitToZeroValue = 0
  pair_commitSum : ∀ {pos neg c}, secp.commitSum pos neg = some c →
    pair c = (pos.map pair).sum - (neg.map pair).sum
  pair_commitValue : ∀ {v c}, secp.commitValue v = some c → pair c = ((v.toNat : ℤ), 0)
  pair_commit : ∀ {v k c}, secp.commit v k = some c → pair c = ((v.toNat : ℤ), scalar k)

namespace Opening

variable {secp : Secp} {S : Type} [AddCommGroup S] (o : Opening secp S)

def value (c : Commitment) : ℤ := (o.pair c).1

def total (l : List Commitment) : ℤ := (l.map o.value).sum

@[simp]
theorem total_nil
    : o.total [] = 0 := rfl

@[simp]
theorem total_cons (c : Commitment) (l : List Commitment)
    : o.total (c :: l) = o.value c + o.total l := by
  simp [total]

@[simp]
theorem total_append (l k : List Commitment)
    : o.total (l ++ k) = o.total l + o.total k := by
  simp [total]

theorem fst_sum_map_pair (l : List Commitment)
    : (l.map o.pair).sum.1 = o.total l := by
  induction l with
  | nil => rfl
  | cons c l ih => simp [ih, value]

theorem total_filter_ne_zero (l : List Commitment)
    : o.total (l.filter (· ≠ commitToZeroValue)) = o.total l := by
  induction l with
  | nil => rfl
  | cons c l ih =>
    by_cases hc : c = commitToZeroValue
    . have hvalue : o.value c = 0 := by simp [value, hc, o.pair_zero]
      rw [List.filter_cons_of_neg (by simpa using hc), total_cons, ih, hvalue]
      simp
    . rw [List.filter_cons_of_pos (by simpa using hc), total_cons, total_cons, ih]

theorem value_of_commitSum
    (h : secp.commitSum pos neg = some c)
    : o.value c = o.total pos - o.total neg := by
  unfold value
  rw [o.pair_commitSum h]
  simp [fst_sum_map_pair]

theorem value_of_sumCommits
    (h : sumCommits secp pos neg = .ok c)
    : o.value c = o.total pos - o.total neg := by
  unfold sumCommits at h
  rw [Outcome.okOr_eq_ok] at h
  rw [o.value_of_commitSum h]
  rw [total_filter_ne_zero, total_filter_ne_zero]

theorem value_of_commitValue (h : secp.commitValue v = some c)
    : o.value c = v.toNat := by
  simp [value, o.pair_commitValue h]

theorem value_of_sumCommitments {c : Committed}
    (h : c.sumCommitments secp overage = .ok r)
    : o.value r = o.total c.outputsCommitted + overage.toInt - o.total c.inputsCommitted := by
  unfold Committed.sumCommitments at h
  by_cases hzero : overage = 0
  . simp only [hzero, ne_eq, not_true_eq_false, ↓reduceIte] at h
    rw [o.value_of_sumCommits h, hzero]
    simp
  . simp only [ne_eq, hzero, not_false_eq_true, ↓reduceIte] at h
    simp only [Outcome.bind_eq_ok, Outcome.okOr_eq_ok, Outcome.unwrap_eq_ok] at h
    obtain ⟨abs, habs, excess, hexcess, h⟩ := h
    have hvalue : o.value excess = overage.toInt.natAbs := by
      unfold Committed.checkedAbs at habs
      split at habs
      . contradiction
      . injection habs with habs
        have hlo := overage.le_toInt
        have hhi := overage.toInt_lt
        rw [o.value_of_commitValue hexcess, ← habs]
        rw [UInt64.toNat_ofNat_of_lt' (by unfold UInt64.size; omega)]
    split at h
    next hneg =>
      have hneg : overage.toInt < 0 := by simpa using Int64.lt_iff_toInt_lt.mp hneg
      rw [o.value_of_sumCommits h]
      simp only [total_append, total_cons, total_nil, hvalue]
      omega
    next hneg =>
      have hneg : ¬ overage.toInt < 0 := by
        intro hlt
        exact hneg (Int64.lt_iff_toInt_lt.mpr (by simpa using hlt))
      rw [o.value_of_sumCommits h]
      simp only [total_append, total_cons, total_nil, hvalue]
      omega

theorem total_of_offsetCommits
    (h : Committed.offsetCommits secp offset = .ok l)
    : o.total l = 0 := by
  unfold Committed.offsetCommits at h
  split at h
  . simp only [Outcome.bind_eq_ok, Outcome.pure_eq_ok, Outcome.okOr_eq_ok, Outcome.ok.injEq] at h
    obtain ⟨key, -, offsetCommit, hoffset, rfl⟩ := h
    simp [value, o.pair_commit hoffset]
  . simp only [Outcome.ok.injEq] at h
    rw [← h]
    rfl

theorem value_of_sumKernelExcesses {c : Committed} (h : c.sumKernelExcesses secp offset = .ok r)
    : o.value r.1 = o.total c.kernelsCommitted ∧ o.value r.2 = o.total c.kernelsCommitted := by
  unfold Committed.sumKernelExcesses at h
  simp only [Outcome.bind_eq_ok, Outcome.pure_eq_ok, Outcome.okOr_eq_ok, Outcome.ok.injEq] at h
  obtain ⟨kernelSum, hsum, commits, hcommits, plus, hplus, hr⟩ := h
  have hkernel : o.value kernelSum = o.total c.kernelsCommitted := by
    rw [o.value_of_sumCommits hsum]
    simp
  rw [← hr]
  refine ⟨hkernel, ?_⟩
  rw [o.value_of_commitSum hplus]
  simp [hkernel, o.total_of_offsetCommits hcommits]

theorem value_of_verifyKernelSums {c : Committed} (h : c.verifyKernelSums secp overage offset = .ok r)
    : o.value r.2 = o.total c.kernelsCommitted
        ∧
      o.value r.1 = o.total c.kernelsCommitted
        ∧
      o.total c.outputsCommitted + overage.toInt
        =
      o.total c.inputsCommitted + o.total c.kernelsCommitted := by
  unfold Committed.verifyKernelSums at h
  simp only [Outcome.bind_eq_ok, Outcome.pure_eq_ok, Outcome.require_eq_ok, Outcome.ok.injEq] at h
  obtain ⟨utxoSum, hutxo, ⟨kernelSum, plus⟩, hkernel, -, heq, hr⟩ := h
  have hsum := o.value_of_sumCommitments hutxo
  have hexcess := o.value_of_sumKernelExcesses hkernel
  dsimp at hexcess heq
  rw [← hr]
  dsimp
  rw [heq] at hsum ⊢
  refine ⟨hexcess.1, hexcess.2, ?_⟩
  omega

end Opening

end Epic
