import Mathlib.Algebra.BigOperators.Group.List.Basic
import Mathlib.Algebra.Ring.Nat
import Mathlib.Data.Finset.Card
import Mathlib.Data.List.Sort
import Mathlib.Order.Interval.Finset.Nat

/-!
This module contains the ranks of numbers in strictly increasing lists: how many elements come up to a
number, and the element of a given rank.
-/

namespace Epic
namespace Rank

variable {l : List Nat} {q x : Nat}

theorem filter_eq_nil (h : ∀ y ∈ l, q < y)
    : l.filter (· ≤ q) = [] := by
  rw [List.filter_eq_nil_iff]
  intro y hy
  have := h y hy
  simp only [decide_eq_true_eq]
  omega

theorem take_length_filter (hl : l.Pairwise (· < ·))
    : l.take (l.filter (· ≤ q)).length = l.filter (· ≤ q) := by
  induction l with
  | nil => rfl
  | cons y l ih =>
    rw [List.pairwise_cons] at hl
    by_cases hy : y ≤ q
    . rw [List.filter_cons_of_pos (by simpa using hy), List.length_cons, List.take_succ_cons, ih hl.2]
    . have hnil : l.filter (· ≤ q) = [] := filter_eq_nil fun z hz => by
        have := hl.1 z hz
        omega
      rw [List.filter_cons_of_neg (by simpa using hy), hnil]
      rfl

theorem getElem?_length_filter (hl : l.Pairwise (· < ·)) (hx : x ∈ l)
    : l[(l.filter (· ≤ x)).length - 1]? = some x := by
  induction l with
  | nil => contradiction
  | cons y l ih =>
    rw [List.pairwise_cons] at hl
    rcases List.mem_cons.mp hx with rfl | hmem
    . rw [List.filter_cons_of_pos (by simp), filter_eq_nil hl.1]
      rfl
    . have hlt := hl.1 x hmem
      have hpos : 0 < (l.filter (· ≤ x)).length :=
        List.length_pos_of_mem (List.mem_filter.mpr ⟨hmem, by simp⟩)
      rw [List.filter_cons_of_pos (by simpa using hlt.le), List.length_cons, Nat.add_sub_cancel,
        List.getElem?_cons, if_neg (by omega)]
      exact ih hl.2 hmem

theorem lt_of_getElem? {i j y : Nat} (hl : l.Pairwise (· < ·)) (hi : l[i]? = some x)
    (hj : l[j]? = some y) (hlt : x < y)
    : i < j := by
  obtain ⟨hilt, rfl⟩ := List.getElem?_eq_some_iff.mp hi
  obtain ⟨hjlt, rfl⟩ := List.getElem?_eq_some_iff.mp hj
  by_contra hle
  rcases Nat.lt_or_eq_of_le (Nat.le_of_not_lt hle) with hlt' | rfl
  . have := List.pairwise_iff_getElem.mp hl j i hjlt hilt hlt'
    omega
  . omega

theorem pairwise_map_place {P : List Nat} {place : Nat → Nat} (hl : l.Pairwise (· < ·))
    (hP : P.Pairwise (· < ·)) (hplace : ∀ x ∈ P, l[place x]? = some x)
    : (P.map place).Pairwise (· < ·) := by
  rw [List.pairwise_map]
  exact hP.imp_of_mem fun hx hy hlt => lt_of_getElem? hl (hplace _ hx) (hplace _ hy) hlt

theorem map_filter_zipIdx {P : List Nat} {place : Nat → Nat} (hl : l.Pairwise (· < ·))
    (hplace : ∀ x ∈ P, l[place x]? = some x)
    : (l.zipIdx.filter fun e => e.2 ∉ P.map place).map (·.1) = l.filter (· ∉ P) := by
  have hsame : l.zipIdx.filter (fun e => e.2 ∉ P.map place)
      = l.zipIdx.filter ((fun x => decide (x ∉ P)) ∘ (·.1)) := by
    apply List.filter_congr
    rintro ⟨x, i⟩ he
    have hi : l[i]? = some x := List.mk_mem_zipIdx_iff_getElem?.mp he
    simp only [Function.comp_apply, decide_eq_decide, not_iff_not]
    rw [List.mem_map]
    constructor
    . rintro ⟨y, hy, rfl⟩
      rw [hplace y hy] at hi
      rw [← Option.some.inj hi]
      exact hy
    . intro hx
      refine ⟨x, hx, ?_⟩
      have hnodup : l.Nodup := hl.imp fun h => Nat.ne_of_lt h
      obtain ⟨hlt, -⟩ := List.getElem?_eq_some_iff.mp hi
      exact ((List.getElem?_inj hlt hnodup).mp (hi.trans (hplace x hx).symm)).symm
  rw [hsame, ← List.filter_map, List.zipIdx_map_fst]

theorem strictMonoOn_card (s : Finset Nat)
    : StrictMonoOn (fun x => (s.filter (· ≤ x)).card) s := by
  intro x _ y hy hlt
  apply Finset.card_lt_card
  rw [Finset.ssubset_iff_of_subset]
  . exact ⟨y, by simpa using hy, by simp [hlt]⟩
  . intro z hz
    rw [Finset.mem_filter] at hz ⊢
    exact ⟨hz.1, hz.2.trans hlt.le⟩

theorem bijOn_card (s : Finset Nat)
    : Set.BijOn (fun x => (s.filter (· ≤ x)).card) s (Set.Icc 1 s.card) := by
  have hmaps : ∀ x ∈ s, (s.filter (· ≤ x)).card ∈ Finset.Icc 1 s.card := by
    intro x hx
    rw [Finset.mem_Icc]
    exact ⟨Finset.card_pos.mpr ⟨x, by simp [hx]⟩, Finset.card_filter_le _ _⟩
  have hinj := (strictMonoOn_card s).injOn
  rw [← Finset.coe_Icc]
  refine ⟨hmaps, hinj, ?_⟩
  exact Finset.surjOn_of_injOn_of_card_le _ hmaps hinj (by rw [Nat.card_Icc, Nat.add_sub_cancel])

def sums (f : Nat → Nat) (l : List Nat) : List Nat :=
  (List.range l.length).map fun i => ((l.take (i + 1)).map f).sum

theorem length_sums (f : Nat → Nat) (l : List Nat)
    : (sums f l).length = l.length := by
  simp [sums]

theorem sums_concat (f : Nat → Nat) (l : List Nat) (x : Nat)
    : sums f (l ++ [x]) = sums f l ++ [(l.map f).sum + f x] := by
  unfold sums
  rw [List.length_append, List.length_singleton, List.range_succ, List.map_append]
  congr 1
  . apply List.map_congr_left
    intro i hi
    rw [List.mem_range] at hi
    rw [List.take_append_of_le_length (by omega)]
  . simp [List.take_of_length_le]

theorem getD_sums (f : Nat → Nat) (hi : 0 < i) (hle : i ≤ l.length)
    : (sums f l).getD (i - 1) 0 = ((l.take i).map f).sum := by
  have hlt : i - 1 < l.length := by omega
  simp [sums, List.getD_eq_getElem?_getD, hlt, Nat.sub_add_cancel hi]

end Rank
end Epic
