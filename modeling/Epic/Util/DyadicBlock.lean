import Mathlib.Algebra.Order.Ring.Nat
import Mathlib.Data.Finset.Insert
import Mathlib.Data.Finset.Range
import Mathlib.Data.Nat.Find

/-!
This module contains the dyadic blocks of the natural numbers: the i-th block of height k holds the numbers
that are i when divided by 2 ^ k. The blocks that lie in a set are those below the topmost ones.
-/

namespace Epic
namespace DyadicBlock

def Full (s : Finset Nat) (i k : Nat) : Prop := ∀ j, j / 2 ^ k = i → j ∈ s

structure Top (s : Finset Nat) (i k : Nat) : Prop where
  full : Full s i k
  above : ¬ Full s (i / 2) (k + 1)

variable {s s' : Finset Nat} {i j k t x n : Nat}

theorem div_two_pow_add (j k t : Nat)
    : j / 2 ^ (k + t) = j / 2 ^ k / 2 ^ t := by
  rw [Nat.pow_add, Nat.div_div_eq_div_mul]

theorem div_two_pow_succ (j k : Nat)
    : j / 2 ^ (k + 1) = j / 2 ^ k / 2 := div_two_pow_add j k 1

theorem full_zero
    : Full s i 0 ↔ i ∈ s := by
  simp [Full]

theorem full_empty (i k : Nat)
    : ¬ Full ∅ i k := by
  intro h
  exact absurd (h (2 ^ k * i) (Nat.mul_div_cancel_left i (Nat.two_pow_pos k))) (Finset.notMem_empty _)

theorem Full.mono (h : Full s i k) (hs : s ⊆ s')
    : Full s' i k := fun j hj => hs (h j hj)

theorem Full.below (h : Full s (i / 2 ^ t) (k + t))
    : Full s i k := by
  intro j hj
  apply h
  rw [div_two_pow_add, hj]

theorem Full.half (h : Full s (i / 2) (k + 1))
    : Full s i k := Full.below (t := 1) h

theorem full_half_iff (hne : i ≠ j) (hhalf : i / 2 = j / 2)
    : Full s (i / 2) (k + 1) ↔ Full s i k ∧ Full s j k := by
  constructor
  . intro h
    refine ⟨h.half, ?_⟩
    rw [hhalf] at h
    exact h.half
  . rintro ⟨hi, hj⟩ x hx
    rw [div_two_pow_succ] at hx
    rcases (by omega : x / 2 ^ k = i ∨ x / 2 ^ k = j) with h | h
    . exact hi x h
    . exact hj x h

theorem last_div (i k : Nat)
    : (2 ^ k * (i + 1) - 1) / 2 ^ k = i := by
  have hpow : 0 < 2 ^ k := Nat.two_pow_pos k
  have hsplit : 2 ^ k * (i + 1) - 1 = 2 ^ k * i + (2 ^ k - 1) := by
    rw [Nat.mul_add]
    omega
  rw [hsplit, Nat.mul_add_div hpow, Nat.div_eq_of_lt (by omega), Nat.add_zero]

theorem Full.le (h : Full s i k) (hs : s ⊆ Finset.range n)
    : 2 ^ k * (i + 1) ≤ n := by
  have hmem := Finset.mem_range.mp (hs (h _ (last_div i k)))
  omega

theorem Full.height_lt (h : Full s i k) (hs : s ⊆ Finset.range n)
    : k < n := by
  have hle := h.le hs
  have hpow : k < 2 ^ k := Nat.lt_two_pow_self
  have hmul : 2 ^ k ≤ 2 ^ k * (i + 1) := Nat.le_mul_of_pos_right _ (Nat.succ_pos i)
  omega

theorem Full.exists_top (h : Full s i k)
    : ∃ t, Top s (i / 2 ^ t) (k + t) := by
  have hex : ∃ t, ¬ Full s (i / 2 ^ (t + 1)) (k + (t + 1)) := by
    obtain ⟨n, hn⟩ := s.exists_nat_subset_range
    refine ⟨n, fun hfull => ?_⟩
    have := hfull.height_lt hn
    omega
  classical
  refine ⟨Nat.find hex, ?_, ?_⟩
  . rcases hfind : Nat.find hex with _ | t
    . rw [Nat.pow_zero, Nat.div_one]
      exact h
    . exact not_not.mp (Nat.find_min hex (m := t) (by omega))
  . have habove := Nat.find_spec hex
    rw [div_two_pow_succ] at habove
    exact habove

theorem Top.eq_zero (h : Top s i k) (hfull : Full s (i / 2 ^ t) (k + t))
    : t = 0 := by
  rcases t with _ | t
  . rfl
  . refine absurd (Full.below (t := t) ?_) h.above
    rw [Nat.div_div_eq_div_mul, ← Nat.pow_succ', Nat.add_right_comm, Nat.add_assoc]
    exact hfull

theorem full_insert_of_ne (h : i ≠ x / 2 ^ k)
    : Full (insert x s) i k ↔ Full s i k := by
  constructor
  . intro hfull j hj
    rcases Finset.mem_insert.mp (hfull j hj) with rfl | hmem
    . exact absurd hj.symm h
    . exact hmem
  . intro hfull
    exact hfull.mono (Finset.subset_insert x s)

theorem not_full_of_notMem (hx : x ∉ s) (k : Nat)
    : ¬ Full s (x / 2 ^ k) k := fun h => hx (h x rfl)

theorem full_insert_zero (x : Nat)
    : Full (insert x s) (x / 2 ^ 0) 0 := by
  rw [full_zero, Nat.pow_zero, Nat.div_one]
  exact Finset.mem_insert_self x s

end DyadicBlock
end Epic
