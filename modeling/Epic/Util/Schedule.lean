import Mathlib.Algebra.BigOperators.Intervals
import Mathlib.Algebra.Order.BigOperators.Group.Finset
import Mathlib.Tactic.Ring

/-!
This module contains schedules: lists of eras, each with a length and a rate that holds in all of it.
-/

namespace Schedule

def rateAt (eras : List (Nat × Nat)) (n : Nat) : Option Nat :=
  match eras with
  | [] => none
  | (len, rate) :: eras => if n < len then some rate else rateAt eras (n - len)

def duration (eras : List (Nat × Nat)) : Nat := (eras.map Prod.fst).sum

def total (eras : List (Nat × Nat)) : Nat := (eras.map fun era => era.1 * era.2).sum

variable {eras : List (Nat × Nat)}

theorem rateAt_append (eras' : List (Nat × Nat)) (n : Nat)
    : rateAt (eras ++ eras') n
        =
      if n < duration eras then rateAt eras n else rateAt eras' (n - duration eras) := by
  induction eras generalizing n with
  | nil => simp [duration]
  | cons era eras ih =>
    have hduration : duration (era :: eras) = era.1 + duration eras := by simp [duration]
    simp only [List.cons_append, rateAt, ih, hduration]
    split_ifs <;> first | rfl | omega | (congr 1; omega)

theorem rateAt_map_range (hlen : 0 < len) (f : Nat → Nat) (k m n : Nat)
    : rateAt ((List.range' k m).map fun i => (len, f i)) n
        =
      if n < m * len then some (f (k + n / len)) else none := by
  induction m generalizing k n with
  | zero => simp [rateAt]
  | succ m ih =>
    rw [List.range'_succ, List.map_cons, rateAt, ih]
    rcases Nat.lt_or_ge n len with hlt | hge
    . have henough : n < (m + 1) * len := by
        rw [Nat.succ_mul]
        omega
      rw [if_pos hlt, if_pos henough, Nat.div_eq_of_lt hlt, Nat.add_zero]
    . have hdiv : n / len = (n - len) / len + 1 := by
        rw [← Nat.add_div_right _ hlen, Nat.sub_add_cancel hge]
      have hiff : n - len < m * len ↔ n < (m + 1) * len := by
        rw [Nat.succ_mul]
        omega
      rw [if_neg (Nat.not_lt_of_le hge), hdiv]
      simp only [hiff, Nat.add_assoc, Nat.add_comm 1]

theorem mem_of_rateAt (h : rateAt eras n = some rate)
    : rate ∈ eras.map Prod.snd := by
  fun_induction rateAt eras n with
  | case1 => contradiction
  | case2 => simp_all
  | case3 _ _ _ _ _ ih => exact List.mem_cons_of_mem _ (ih h)

theorem rateAt_antitone (hsorted : (eras.map Prod.snd).Pairwise (· ≥ ·)) {i j r r' : Nat} (hij : i ≤ j)
    (hi : rateAt eras i = some r) (hj : rateAt eras j = some r')
    : r' ≤ r := by
  induction eras generalizing i j with
  | nil => contradiction
  | cons era eras ih =>
    rw [List.map_cons, List.pairwise_cons] at hsorted
    unfold rateAt at hi hj
    split at hi
    . injection hi with hi
      split at hj
      . injection hj with hj
        omega
      . rw [← hi]
        exact hsorted.1 r' (mem_of_rateAt hj)
    . rw [if_neg (by omega)] at hj
      exact ih hsorted.2 (Nat.sub_le_sub_right hij _) hi hj

theorem sum_rateAt_le (n : Nat)
    : ∑ i ∈ Finset.range n, (rateAt eras i).getD 0 ≤ total eras := by
  induction eras generalizing n with
  | nil => simp [rateAt]
  | cons era eras ih =>
    obtain ⟨len, rate⟩ := era
    have hfirst (m : Nat) (hm : m ≤ len)
        : ∑ i ∈ Finset.range m, (rateAt ((len, rate) :: eras) i).getD 0 = m * rate := by
      have hrate : ∀ i ∈ Finset.range m, (rateAt ((len, rate) :: eras) i).getD 0 = rate := by
        intro i hi
        have := Finset.mem_range.mp hi
        simp [rateAt, show i < len by omega]
      rw [Finset.sum_const_nat hrate, Finset.card_range]
    have htotal : total ((len, rate) :: eras) = len * rate + total eras := by simp [total]
    rw [htotal]
    rcases Nat.le_total n len with hle | hge
    . rw [hfirst n hle]
      have := Nat.mul_le_mul_right rate hle
      omega
    . obtain ⟨m, rfl⟩ := Nat.exists_eq_add_of_le hge
      rw [Finset.sum_range_add, hfirst len (Nat.le_refl _)]
      have hrest : ∑ i ∈ Finset.range m, (rateAt ((len, rate) :: eras) (len + i)).getD 0
          = ∑ i ∈ Finset.range m, (rateAt eras i).getD 0 := by
        simp [rateAt]
      rw [hrest]
      have := ih m
      omega

/-!
A part of each payment may be withheld and be handed out in one sum at the multiples of a period. What
is missing then is what was withheld since the last multiple.
-/

def lump (period : Nat) (withheld : Nat → ℤ) (n : Nat) : ℤ :=
  if period ∣ n then ∑ i ∈ Finset.Ioc (n - period) n, withheld i else 0

def paid (period : Nat) (rate withheld : Nat → ℤ) (n : Nat) : ℤ :=
  match n with
  | 0 => rate 0
  | n + 1 =>
    paid period rate withheld n + (rate (n + 1) - withheld (n + 1) + lump period withheld (n + 1))

theorem paid_eq (period : Nat) (rate withheld : Nat → ℤ) (n : Nat)
    : paid period rate withheld n
        =
      ∑ i ∈ Finset.range (n + 1), rate i - ∑ i ∈ Finset.Ioc (n / period * period) n, withheld i := by
  induction n with
  | zero => simp [paid]
  | succ n ih =>
    rw [paid, ih, lump, Finset.sum_range_succ _ (n + 1)]
    have hmod := Nat.div_add_mod' n period
    split
    . next hdvd =>
      have hlast : (n / period + 1) * period = n + 1 := by
        have := Nat.div_mul_cancel hdvd
        rwa [Nat.succ_div, if_pos hdvd] at this
      have hwindow : n + 1 - period = n / period * period := by
        rw [Nat.succ_mul] at hlast
        omega
      rw [Nat.succ_div, if_pos hdvd, hlast, hwindow, Finset.Ioc_self, Finset.sum_empty,
        Finset.sum_Ioc_succ_top (by omega)]
      ring
    . next hndvd =>
      have hstart : (n + 1) / period = n / period := by
        rw [Nat.succ_div, if_neg hndvd, Nat.add_zero]
      rw [hstart, Finset.sum_Ioc_succ_top (by omega)]
      ring

theorem paid_le (period : Nat) (rate withheld : Nat → ℤ) (h : ∀ i ≤ n, 0 ≤ withheld i)
    : paid period rate withheld n ≤ ∑ i ∈ Finset.range (n + 1), rate i := by
  rw [paid_eq]
  have hnonneg : 0 ≤ ∑ i ∈ Finset.Ioc (n / period * period) n, withheld i := by
    apply Finset.sum_nonneg
    intro i hi
    exact h i (Finset.mem_Ioc.mp hi).2
  omega

end Schedule
