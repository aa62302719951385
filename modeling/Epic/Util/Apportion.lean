import Mathlib.Algebra.BigOperators.Ring.Finset
import Mathlib.Algebra.Order.BigOperators.Group.Finset
import Mathlib.Data.Fintype.Basic
import Mathlib.Tactic.Linarith

/-!
This module contains the apportionment of a round by the largest deficit: a round has as many turns as
there are shares, and each turn goes to one of those who are furthest behind their share.
-/

namespace Apportion

open Finset

section

variable {ι : Type} [Fintype ι] {share count : ι → ℕ} {n : ℕ} {a : ι}

def total (share : ι → ℕ) : ℕ := ∑ i, share i

-- how far one is behind after n turns, in units of a turn divided by the number of shares
def deficit (share count : ι → ℕ) (n : ℕ) (a : ι) : ℤ := share a * n - total share * count a

structure Fair (share count : ι → ℕ) (n : ℕ) : Prop where
  sum : ∑ i, count i = n
  ahead : ∀ a, -(total share : ℤ) < deficit share count n a

theorem Fair.zero (hshare : 0 < total share)
    : Fair share (fun _ => 0) 0 := by
  refine ⟨by simp, fun a => ?_⟩
  unfold deficit
  dsimp only
  omega

theorem Fair.count_eq_zero (h : Fair share count n) (hshare : share a = 0)
    : count a = 0 := by
  have hahead := h.ahead a
  rw [deficit, hshare, Nat.cast_zero, zero_mul, zero_sub, neg_lt_neg_iff] at hahead
  have hlt : total share * count a < total share := by exact_mod_cast hahead
  by_contra hne
  exact Nat.not_lt.mpr (Nat.le_mul_of_pos_right _ (Nat.pos_of_ne_zero hne)) hlt

theorem Fair.sum_deficit (h : Fair share count n)
    : ∑ i, deficit share count n i = 0 := by
  have hcount : ∑ i, (count i : ℤ) = n := by exact_mod_cast h.sum
  have hshare : ∑ i, (share i : ℤ) = total share := by
    unfold total
    push_cast
    rfl
  simp only [deficit, sum_sub_distrib]
  rw [← sum_mul, ← mul_sum, hcount, hshare, sub_self]

theorem Fair.deficit_nonneg (h : Fair share count n)
    (hmax : ∀ b, 0 < share b → deficit share count n b ≤ deficit share count n a)
    : 0 ≤ deficit share count n a := by
  by_contra hneg
  have hle : ∀ b, deficit share count n b ≤ 0 := by
    intro b
    rcases Nat.eq_zero_or_pos (share b) with hzero | hpos
    . rw [deficit, hzero, h.count_eq_zero hzero]
      simp
    . exact (hmax b hpos).trans (by omega)
  have hlt : ∑ i, deficit share count n i < ∑ _i : ι, (0 : ℤ) :=
    sum_lt_sum (fun b _ => hle b) ⟨a, mem_univ a, by omega⟩
  rw [h.sum_deficit, sum_const_zero] at hlt
  exact lt_irrefl _ hlt

theorem Fair.complete (h : Fair share count (total share))
    : count = share := by
  have hle : ∀ a ∈ univ, count a ≤ share a := by
    intro a _
    have hahead := h.ahead a
    unfold deficit at hahead
    have hlt : total share * count a < total share * (share a + 1) := by
      zify
      linarith
    exact Nat.lt_succ_iff.mp (Nat.lt_of_mul_lt_mul_left hlt)
  funext a
  exact (sum_eq_sum_iff_of_le hle).mp h.sum a (mem_univ a)

end

section

variable {ι : Type} [Fintype ι] [DecidableEq ι] {share count : ι → ℕ} {n : ℕ} {a : ι}

theorem Fair.turn (h : Fair share count n) (hpos : 0 < share a)
    (hmax : ∀ b, 0 < share b → deficit share count n b ≤ deficit share count n a)
    : Fair share (fun i => if i = a then count i + 1 else count i) (n + 1) := by
  constructor
  . have hone : ∀ i, (if i = a then count i + 1 else count i) = count i + if i = a then 1 else 0 := by
      intro i
      split <;> rfl
    simp only [hone, sum_add_distrib, sum_ite_eq', mem_univ, if_true, h.sum]
  . intro b
    have hahead := h.ahead b
    have hnonneg := h.deficit_nonneg hmax
    unfold deficit at hahead hnonneg ⊢
    dsimp only
    split
    . next heq =>
      subst heq
      have hshare : (0 : ℤ) < share b := by exact_mod_cast hpos
      push_cast
      linarith
    . have hshare : (0 : ℤ) ≤ share b := Int.natCast_nonneg _
      push_cast
      linarith

end

end Apportion
