import Epic.Core.Pmmr.Subtree
import Epic.Store.PruneList

/-!
This module contains what a prune list says about the leaves that were pruned. A node is pruned when all
leaves below it are, and the bitmap holds the topmost of these nodes.
-/

namespace Epic
namespace PruneList

open Pmmr DyadicBlock

-- the leaves are given by their numbers
structure Prunes (p : PruneList) (s : Finset Nat) : Prop where
  mem_bitmap : ∀ pos, pos ∈ p.bitmap ↔ ∃ i k, pos = nodeAt i k ∧ Top s i k
  mem_cache : ∀ pos, pos ∈ p.prunedCache ↔ ∃ i k, pos = nodeAt i k ∧ Full s i k

section

variable {p : PruneList} {s : Finset Nat} {i k n x : Nat}

theorem Prunes.new
    : Prunes new ∅ where
  mem_bitmap pos := by
    refine ⟨fun h => absurd h (Finset.notMem_empty _), ?_⟩
    rintro ⟨i, k, -, htop⟩
    exact absurd htop.full (full_empty i k)
  mem_cache pos := by
    refine ⟨fun h => absurd h (Finset.notMem_empty _), ?_⟩
    rintro ⟨i, k, -, hfull⟩
    exact absurd hfull (full_empty i k)

theorem Prunes.isPruned_nodeAt (h : Prunes p s)
    : p.isPruned (nodeAt i k) = true ↔ Full s i k := by
  unfold isPruned
  rw [decide_eq_true_eq, h.mem_cache]
  constructor
  . rintro ⟨j, l, heq, hfull⟩
    obtain ⟨rfl, rfl⟩ := nodeAt_inj heq
    exact hfull
  . intro hfull
    exact ⟨i, k, rfl, hfull⟩

theorem Prunes.isPrunedRoot_nodeAt (h : Prunes p s)
    : p.isPrunedRoot (nodeAt i k) = true ↔ Top s i k := by
  unfold isPrunedRoot
  rw [decide_eq_true_eq, h.mem_bitmap]
  constructor
  . rintro ⟨j, l, heq, htop⟩
    obtain ⟨rfl, rfl⟩ := nodeAt_inj heq
    exact htop
  . intro htop
    exact ⟨i, k, rfl, htop⟩

theorem Prunes.zero_notMem (h : Prunes p s)
    : 0 ∉ p.bitmap := by
  intro hmem
  obtain ⟨i, k, heq, -⟩ := (h.mem_bitmap 0).mp hmem
  have := nodeAt_pos i k
  omega

theorem Prunes.bitmap_le (h : Prunes p s) (hs : s ⊆ Finset.range n) (hpos : pos ∈ p.bitmap)
    : pos ≤ mmrSize n := by
  obtain ⟨i, k, rfl, htop⟩ := (h.mem_bitmap pos).mp hpos
  exact nodeAt_le_mmrSize_iff.mpr (htop.full.le hs)

theorem Prunes.cache_le (h : Prunes p s) (hs : s ⊆ Finset.range n)
    (hpos : pos ∈ p.prunedCache)
    : pos ≤ mmrSize n := by
  obtain ⟨i, k, rfl, hfull⟩ := (h.mem_cache pos).mp hpos
  exact nodeAt_le_mmrSize_iff.mpr (hfull.le hs)

def compacts (p : PruneList) (pos : Nat) : Bool := p.isPruned pos && !p.isPrunedRoot pos

theorem Prunes.compacts_nodeAt (h : Prunes p s)
    : p.compacts (nodeAt i k) = true ↔ Full s (i / 2) (k + 1) := by
  unfold compacts
  rw [Bool.and_eq_true, Bool.not_eq_true', ← Bool.not_eq_true, h.isPruned_nodeAt, h.isPrunedRoot_nodeAt]
  constructor
  . rintro ⟨hfull, hnot⟩
    by_contra habove
    exact hnot ⟨hfull, habove⟩
  . intro habove
    exact ⟨habove.half, fun htop => htop.above habove⟩

theorem Prunes.compacts_eq_true (h : Prunes p s)
    : p.compacts pos = true ↔ ∃ i k, pos = nodeAt i k ∧ Full s (i / 2) (k + 1) := by
  constructor
  . intro hcompacts
    have hpruned := (Bool.and_eq_true_iff.mp hcompacts).1
    obtain ⟨i, k, rfl, -⟩ := (h.mem_cache pos).mp (of_decide_eq_true hpruned)
    exact ⟨i, k, rfl, h.compacts_nodeAt.mp hcompacts⟩
  . rintro ⟨i, k, rfl, hfull⟩
    exact h.compacts_nodeAt.mpr hfull

end

structure Adding (s : Finset Nat) (x k : Nat) (p : PruneList) : Prop where
  full : Full (insert x s) (x / 2 ^ k) k
  mem_bitmap : ∀ pos, pos ∈ p.bitmap
    ↔ ∃ i l, pos = nodeAt i l ∧ Top s i l ∧ ∀ t, k = l + t → x / 2 ^ k ≠ i / 2 ^ t
  mem_cache : ∀ pos, pos ∈ p.prunedCache
    ↔ ∃ i l, pos = nodeAt i l ∧ (Full s i l ∨ l < k ∧ i = x / 2 ^ l)

section

variable {p : PruneList} {s : Finset Nat} {k x : Nat}

theorem Prunes.adding (h : Prunes p s) (hx : x ∉ s)
    : Adding s x 0 p where
  full := full_insert_zero x
  mem_bitmap pos := by
    rw [h.mem_bitmap]
    refine exists₂_congr fun i l => and_congr_right fun _ => ⟨fun htop => ⟨htop, ?_⟩, fun h => h.1⟩
    intro t ht heq
    obtain ⟨rfl, rfl⟩ : l = 0 ∧ t = 0 := by omega
    rw [Nat.pow_zero, Nat.div_one, Nat.div_one] at heq
    rw [← heq, ← Nat.div_one x, ← Nat.pow_zero 2] at htop
    exact not_full_of_notMem hx 0 htop.full
  mem_cache pos := by
    rw [h.mem_cache]
    refine exists₂_congr fun i l => and_congr_right fun _ => ?_
    simp

theorem Adding.sibling_iff (h : Adding s x k p)
    : nodeAt (siblingOf (x / 2 ^ k)) k ∈ p.bitmap ∨ nodeAt (siblingOf (x / 2 ^ k)) k ∈ p.prunedCache
        ↔
      Full s (siblingOf (x / 2 ^ k)) k := by
  rw [h.mem_bitmap, h.mem_cache]
  constructor
  . rintro (⟨i, l, heq, htop, -⟩ | ⟨i, l, heq, hfull | ⟨hlt, -⟩⟩)
    . obtain ⟨rfl, rfl⟩ := nodeAt_inj heq
      exact htop.full
    . obtain ⟨rfl, rfl⟩ := nodeAt_inj heq
      exact hfull
    . obtain ⟨-, rfl⟩ := nodeAt_inj heq
      omega
  . intro hfull
    exact .inr ⟨_, _, rfl, .inl hfull⟩

theorem div_eq_parent_iff
    : x / 2 ^ (k + 1) = i / 2 ^ (t + 1)
        ↔
      x / 2 ^ k = i / 2 ^ t ∨ siblingOf (x / 2 ^ k) = i / 2 ^ t := by
  have hne := siblingOf_ne (x / 2 ^ k)
  have hhalf := siblingOf_half (x / 2 ^ k)
  rw [div_two_pow_succ, div_two_pow_succ]
  omega

theorem Adding.up (h : Adding s x k p) (hx : x ∉ s) (hsibling : Full s (siblingOf (x / 2 ^ k)) k)
    : Adding s x (k + 1) { p with
        prunedCache := insert (nodeAt (x / 2 ^ k) k) p.prunedCache
        bitmap := p.bitmap.erase (nodeAt (siblingOf (x / 2 ^ k)) k) } where
  full := by
    rw [div_two_pow_succ, full_half_iff (siblingOf_ne _) (siblingOf_half _)]
    exact ⟨h.full, hsibling.mono (Finset.subset_insert x s)⟩
  mem_bitmap pos := by
    dsimp only
    rw [Finset.mem_erase, h.mem_bitmap]
    constructor
    . rintro ⟨hne, i, l, rfl, htop, hbelow⟩
      refine ⟨i, l, rfl, htop, ?_⟩
      intro t ht heq
      rcases t with _ | t
      . -- the parent itself is not pruned
        rw [Nat.pow_zero, Nat.div_one] at heq
        rw [← heq] at htop
        obtain rfl : l = k + 1 := by omega
        exact not_full_of_notMem hx (k + 1) htop.full
      . rcases div_eq_parent_iff.mp heq with heq | heq
        . exact hbelow t (by omega) heq
        . -- a root below the sibling is the sibling
          obtain rfl : k = l + t := by omega
          rw [heq] at hsibling
          obtain rfl := htop.eq_zero hsibling
          rw [Nat.pow_zero, Nat.div_one] at heq
          exact hne (by rw [← heq, Nat.add_zero])
    . rintro ⟨i, l, rfl, htop, hbelow⟩
      refine ⟨?_, i, l, rfl, htop, fun t ht heq => ?_⟩
      . intro heq
        obtain ⟨rfl, rfl⟩ := nodeAt_inj heq
        exact hbelow 1 rfl ((div_eq_parent_iff (t := 0)).mpr (.inr (by simp)))
      . exact hbelow (t + 1) (by omega) (div_eq_parent_iff.mpr (.inl heq))
  mem_cache pos := by
    dsimp only
    rw [Finset.mem_insert, h.mem_cache]
    constructor
    . rintro (rfl | ⟨i, l, rfl, hfull | ⟨hlt, rfl⟩⟩)
      . exact ⟨_, _, rfl, .inr ⟨by omega, rfl⟩⟩
      . exact ⟨i, l, rfl, .inl hfull⟩
      . exact ⟨_, l, rfl, .inr ⟨by omega, rfl⟩⟩
    . rintro ⟨i, l, rfl, hfull | ⟨hlt, rfl⟩⟩
      . exact .inr ⟨i, l, rfl, .inl hfull⟩
      . rcases Nat.lt_succ_iff_lt_or_eq.mp hlt with hlt | rfl
        . exact .inr ⟨_, l, rfl, .inr ⟨hlt, rfl⟩⟩
        . exact .inl rfl

theorem full_insert_iff (hx : x ∉ s) (hfull : Full (insert x s) (x / 2 ^ k) k)
    (hsibling : ¬ Full s (siblingOf (x / 2 ^ k)) k)
    : Full (insert x s) i l ↔ Full s i l ∨ l ≤ k ∧ i = x / 2 ^ l := by
  by_cases hi : i = x / 2 ^ l
  . subst hi
    have hnot := not_full_of_notMem hx l
    constructor
    . intro hl
      refine .inr ⟨?_, rfl⟩
      by_contra hlt
      obtain ⟨t, rfl⟩ := Nat.exists_eq_add_of_lt (Nat.lt_of_not_le hlt)
      have hparent : Full (insert x s) (x / 2 ^ k / 2) (k + 1) := by
        apply Full.below (t := t)
        rw [← div_two_pow_succ, ← div_two_pow_add, Nat.add_right_comm]
        exact hl
      rw [full_half_iff (siblingOf_ne _) (siblingOf_half _),
        full_insert_of_ne (siblingOf_ne _).symm] at hparent
      exact hsibling hparent.2
    . rintro (hl | ⟨hle, -⟩)
      . exact absurd hl hnot
      . obtain ⟨t, rfl⟩ := Nat.exists_eq_add_of_le hle
        apply Full.below (t := t)
        rw [← div_two_pow_add]
        exact hfull
  . rw [full_insert_of_ne hi]
    constructor
    . exact .inl
    . rintro (hl | ⟨-, heq⟩)
      . exact hl
      . exact absurd heq hi

theorem Adding.done (h : Adding s x k p) (hx : x ∉ s)
    (hsibling : ¬ Full s (siblingOf (x / 2 ^ k)) k)
    : Prunes { p with
        prunedCache := insert (nodeAt (x / 2 ^ k) k) p.prunedCache
        bitmap := insert (nodeAt (x / 2 ^ k) k) p.bitmap } (insert x s) where
  mem_bitmap pos := by
    have hiff {i l : Nat} := full_insert_iff (i := i) (l := l) hx h.full hsibling
    dsimp only
    rw [Finset.mem_insert, h.mem_bitmap]
    constructor
    . rintro (rfl | ⟨i, l, rfl, htop, hbelow⟩)
      . refine ⟨_, _, rfl, h.full, ?_⟩
        rw [hiff]
        rintro (hfull | ⟨hle, -⟩)
        . rw [← div_two_pow_succ] at hfull
          exact not_full_of_notMem hx _ hfull
        . omega
      . refine ⟨i, l, rfl, htop.full.mono (Finset.subset_insert x s), ?_⟩
        rw [hiff]
        rintro (hfull | ⟨hle, heq⟩)
        . exact htop.above hfull
        . obtain ⟨t, rfl⟩ := Nat.exists_eq_add_of_le hle
          refine hbelow (t + 1) (by omega) ?_
          rw [div_two_pow_add, ← heq, Nat.div_div_eq_div_mul, ← Nat.pow_succ']
    . rintro ⟨i, l, rfl, htop⟩
      rcases hiff.mp htop.full with hfull | ⟨hle, rfl⟩
      . right
        refine ⟨i, l, rfl, ⟨hfull, fun habove => htop.above (habove.mono (Finset.subset_insert x s))⟩, ?_⟩
        rintro t rfl heq
        have hk := h.full
        rw [heq] at hk
        obtain rfl := htop.eq_zero hk
        rw [Nat.pow_zero, Nat.div_one] at heq
        rw [← heq] at hfull
        exact not_full_of_notMem hx _ hfull
      . left
        obtain ⟨t, rfl⟩ := Nat.exists_eq_add_of_le hle
        have hk := h.full
        rw [div_two_pow_add] at hk
        obtain rfl := htop.eq_zero hk
        rfl
  mem_cache pos := by
    have hiff {i l : Nat} := full_insert_iff (i := i) (l := l) hx h.full hsibling
    dsimp only
    rw [Finset.mem_insert, h.mem_cache]
    constructor
    . rintro (rfl | ⟨i, l, rfl, hfull | ⟨hlt, rfl⟩⟩)
      . exact ⟨_, _, rfl, h.full⟩
      . exact ⟨i, l, rfl, hiff.mpr (.inl hfull)⟩
      . exact ⟨_, l, rfl, hiff.mpr (.inr ⟨hlt.le, rfl⟩)⟩
    . rintro ⟨i, l, rfl, hfull⟩
      rcases hiff.mp hfull with hfull | ⟨hle, rfl⟩
      . exact .inr ⟨i, l, rfl, .inl hfull⟩
      . rcases Nat.lt_or_eq_of_le hle with hlt | rfl
        . exact .inr ⟨_, l, rfl, .inr ⟨hlt, rfl⟩⟩
        . exact .inl rfl

theorem Adding.go (h : Adding s x k p) (hx : x ∉ s) (hs : insert x s ⊆ Finset.range n)
    (hn : n < 2 ^ (k + fuel))
    : Prunes (add.go fuel (nodeAt (x / 2 ^ k) k) p) (insert x s) := by
  induction fuel generalizing k p with
  | zero =>
    -- the node would stand over more leaves than there are
    have hle := h.full.le hs
    have hmul : 2 ^ k ≤ 2 ^ k * (x / 2 ^ k + 1) := Nat.le_mul_of_pos_right _ (Nat.succ_pos _)
    rw [Nat.add_zero] at hn
    omega
  | succ fuel ih =>
    unfold add.go
    rw [family_nodeAt]
    dsimp only
    split
    . next hsibling =>
      rw [← div_two_pow_succ]
      exact ih (h.up hx (h.sibling_iff.mp hsibling)) (by rw [Nat.add_right_comm]; exact hn)
    . next hsibling => exact h.done hx (fun hfull => hsibling (h.sibling_iff.mpr hfull))

end

section

variable {p : PruneList} {s : Finset Nat} {n x : Nat}

theorem Prunes.add (h : Prunes p s) (hx : x ∉ s) (hs : insert x s ⊆ Finset.range n) (hn : n < 2 ^ 64)
    : Prunes (p.add (leafPos x)) (insert x s) := by
  have hgo : Prunes (add.go 64 (nodeAt (x / 2 ^ 0) 0) p) (insert x s) := (h.adding hx).go hx hs hn
  rw [Nat.pow_zero, Nat.div_one, nodeAt_zero] at hgo
  exact hgo

end

end PruneList
end Epic
