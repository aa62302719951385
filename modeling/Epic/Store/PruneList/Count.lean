import Epic.Store.PruneList.Shift
import Mathlib.Algebra.BigOperators.Group.Finset.Sigma
import Mathlib.Algebra.Order.BigOperators.Group.Finset

/-!
This module contains that the shifts of a prune list count what is compacted away, so that a shifted
position is the place of a node among those that are kept.
-/

namespace Epic

open Pmmr DyadicBlock

namespace PruneList

def below (root : Nat) : Finset Nat :=
  Finset.Ioo (root - (2 ^ (bintreePostorderHeight root + 1) - 1)) root

section

variable {p : PruneList} {s : Finset Nat} {i k n m pos x : Nat}

theorem below_nodeAt (i k : Nat)
    : below (nodeAt i k) = Finset.Ioo (mmrSize (2 ^ k * i)) (nodeAt i k) := by
  unfold below
  rw [bintreePostorderHeight_nodeAt]
  congr 1
  unfold nodeAt
  omega

theorem mem_below
    : x ∈ below (nodeAt i k) ↔ ∃ j l t, x = nodeAt j l ∧ k = l + (t + 1) ∧ i = j / 2 ^ (t + 1) := by
  rw [below_nodeAt, Finset.mem_Ioo]
  constructor
  . rintro ⟨hlower, hupper⟩
    obtain ⟨j, l, t, rfl, rfl, rfl⟩ := exists_of_between hlower hupper.le
    rcases t with _ | t
    . rw [Nat.pow_zero, Nat.div_one] at hupper
      exact absurd hupper (Nat.lt_irrefl _)
    . exact ⟨j, l, t, rfl, rfl, rfl⟩
  . rintro ⟨j, l, t, rfl, rfl, rfl⟩
    exact ⟨mmrSize_lt_nodeAt_below j l (t + 1), nodeAt_lt_above j l t⟩

theorem card_below (i k : Nat)
    : (below (nodeAt i k)).card = rootShift (nodeAt i k) := by
  have hpow := Nat.two_pow_pos k
  rw [below_nodeAt, Nat.card_Ioo, rootShift, bintreePostorderHeight_nodeAt, nodeAt, Nat.pow_succ]
  omega

-- no root is below another one, and what is compacted is what is below them
structure Rooted (p : PruneList) : Prop where
  pos : ∀ root ∈ p.bitmap, 0 < root
  disjoint : ∀ root ∈ p.bitmap, ∀ root' ∈ p.bitmap, root ∉ below root'
  compacts_iff : ∀ x, p.compacts x = true ↔ ∃ root ∈ p.bitmap, x ∈ below root

theorem Rooted.exists_nodeAt (h : Rooted p) (hroot : root ∈ p.bitmap)
    : ∃ i k, root = nodeAt i k := exists_eq_nodeAt (h.pos root hroot)

theorem Prunes.rooted (h : Prunes p s)
    : Rooted p where
  pos root hroot := by
    obtain ⟨i, k, rfl, -⟩ := (h.mem_bitmap root).mp hroot
    exact nodeAt_pos i k
  disjoint root hroot root' hroot' hbelow := by
    obtain ⟨i, k, rfl, htop⟩ := (h.mem_bitmap root).mp hroot
    obtain ⟨i', k', rfl, htop'⟩ := (h.mem_bitmap root').mp hroot'
    obtain ⟨j, l, t, heq, rfl, rfl⟩ := mem_below.mp hbelow
    obtain ⟨rfl, rfl⟩ := nodeAt_inj heq
    have := htop.eq_zero htop'.full
    omega
  compacts_iff x := by
    rw [h.compacts_eq_true]
    constructor
    . rintro ⟨j, l, rfl, hfull⟩
      obtain ⟨t, htop⟩ := hfull.exists_top
      rw [Nat.div_div_eq_div_mul, ← Nat.pow_succ', Nat.add_assoc, Nat.add_comm 1 t] at htop
      exact ⟨_, (h.mem_bitmap _).mpr ⟨_, _, rfl, htop⟩, mem_below.mpr ⟨j, l, t, rfl, rfl, rfl⟩⟩
    . rintro ⟨root, hroot, hx⟩
      obtain ⟨i, k, rfl, htop⟩ := (h.mem_bitmap root).mp hroot
      obtain ⟨j, l, t, rfl, rfl, rfl⟩ := mem_below.mp hx
      refine ⟨j, l, rfl, ?_⟩
      apply Full.below (t := t)
      rw [Nat.div_div_eq_div_mul, ← Nat.pow_succ', Nat.add_assoc, Nat.add_comm 1 t]
      exact htop.full

theorem mem_below_of_mem_below (hx : x ∈ below (nodeAt i k)) (hx' : x ∈ below (nodeAt i' k'))
    : nodeAt i k = nodeAt i' k' ∨ nodeAt i k ∈ below (nodeAt i' k') ∨ nodeAt i' k' ∈ below (nodeAt i k) := by
  obtain ⟨j, l, t, rfl, rfl, rfl⟩ := mem_below.mp hx
  obtain ⟨j', l', t', heq, rfl, rfl⟩ := mem_below.mp hx'
  obtain ⟨rfl, rfl⟩ := nodeAt_inj heq
  have habove (t u : Nat)
      : nodeAt (j / 2 ^ (t + 1)) (l + (t + 1))
        ∈ below (nodeAt (j / 2 ^ (t + (u + 1) + 1)) (l + (t + (u + 1) + 1))) := by
    refine mem_below.mpr ⟨_, _, u, rfl, by omega, ?_⟩
    rw [← div_two_pow_add]
    congr 2
    omega
  rcases Nat.lt_trichotomy t t' with hlt | rfl | hlt
  . obtain ⟨u, rfl⟩ := Nat.exists_eq_add_of_lt hlt
    exact .inr (.inl (habove t u))
  . exact .inl rfl
  . obtain ⟨u, rfl⟩ := Nat.exists_eq_add_of_lt hlt
    exact .inr (.inr (habove t' u))

theorem Rooted.root_unique (h : Rooted p) (hroot : root ∈ p.bitmap)
    (hroot' : root' ∈ p.bitmap) (hx : x ∈ below root) (hx' : x ∈ below root')
    : root = root' := by
  obtain ⟨i, k, rfl⟩ := h.exists_nodeAt hroot
  obtain ⟨i', k', rfl⟩ := h.exists_nodeAt hroot'
  rcases mem_below_of_mem_below hx hx' with heq | hbelow | hbelow
  . exact heq
  . exact absurd hbelow (h.disjoint _ hroot _ hroot')
  . exact absurd hbelow (h.disjoint _ hroot' _ hroot)

theorem Rooted.not_compacts (h : Rooted p) (hroots : ∀ root ∈ p.bitmap, root ≤ pos)
    : p.compacts pos = false := by
  rw [← Bool.not_eq_true, h.compacts_iff]
  rintro ⟨root, hroot, hbelow⟩
  have hle := hroots root hroot
  have hupper := (Finset.mem_Ioo.mp hbelow).2
  omega

theorem Rooted.root_le (h : Rooted p) (hpos : p.compacts pos = false)
    (hroot : root ∈ p.bitmap) (hx : x ∈ below root) (hle : x ≤ pos)
    : root ≤ pos := by
  by_contra hlt
  have hlower := (Finset.mem_Ioo.mp hx).1
  have hmem : pos ∈ below root := Finset.mem_Ioo.mpr ⟨by omega, by omega⟩
  rw [(h.compacts_iff _).mpr ⟨root, hroot, hmem⟩] at hpos
  contradiction

theorem card_biUnion_eq {roots : Finset Nat} {f : Nat → Finset Nat} {g : Nat → Nat}
    (hcard : ∀ root ∈ roots, (f root).card = g root)
    (hunique : ∀ root ∈ roots, ∀ root' ∈ roots, ∀ x, x ∈ f root → x ∈ f root' → root = root')
    : (roots.biUnion f).card = ∑ root ∈ roots, g root := by
  rw [Finset.card_biUnion]
  . exact Finset.sum_congr rfl hcard
  . intro root hroot root' hroot' hne
    exact Finset.disjoint_left.mpr fun x hx hx' => hne (hunique root hroot root' hroot' x hx hx')

theorem Rooted.card_biUnion_below {roots : Finset Nat} (h : Rooted p) (hroots : roots ⊆ p.bitmap)
    : (roots.biUnion below).card = ∑ root ∈ roots, rootShift root := by
  apply card_biUnion_eq
  . intro root hroot
    obtain ⟨i, k, rfl⟩ := h.exists_nodeAt (hroots hroot)
    exact card_below i k
  . intro root hroot root' hroot' x hx hx'
    exact h.root_unique (hroots hroot) (hroots hroot') hx hx'

theorem Rooted.card_compacts (h : Rooted p) (hcached : Cached p) (hpos : p.compacts pos = false)
    : ((Finset.Icc 1 pos).filter fun x => p.compacts x = true).card = p.getShift pos := by
  have hunion : (Finset.Icc 1 pos).filter (fun x => p.compacts x = true)
      = (p.bitmap.filter (· ≤ pos)).biUnion below := by
    ext x
    simp only [Finset.mem_filter, Finset.mem_Icc, Finset.mem_biUnion]
    rw [h.compacts_iff]
    constructor
    . rintro ⟨⟨-, hle⟩, root, hroot, hx⟩
      exact ⟨root, ⟨hroot, h.root_le hpos hroot hx hle⟩, hx⟩
    . rintro ⟨root, ⟨hroot, hle⟩, hx⟩
      obtain ⟨hlower, hupper⟩ := Finset.mem_Ioo.mp hx
      exact ⟨⟨by omega, by omega⟩, root, hroot, hx⟩
  rw [hunion, hcached.shift]
  exact h.card_biUnion_below (Finset.filter_subset _ _)

def leavesBelow (root : Nat) : Finset Nat :=
  let (peakMap, height) := peakMapHeight (root - 1)
  if height = 0 then ∅ else Finset.Ico (peakMap + 1 - 2 ^ height) (peakMap + 1)

theorem leavesBelow_nodeAt (i k : Nat)
    : leavesBelow (nodeAt i k) = if k = 0 then ∅ else Finset.Ico (2 ^ k * i) (2 ^ k * (i + 1)) := by
  have hpow := Nat.two_pow_pos k
  have hsplit : 2 ^ k * (i + 1) = 2 ^ k * i + 2 ^ k := by ring
  unfold leavesBelow
  rw [peakMapHeight_nodeAt]
  dsimp only
  rw [hsplit, Nat.sub_add_cancel (by omega), Nat.add_sub_cancel]

theorem card_leavesBelow (i k : Nat)
    : (leavesBelow (nodeAt i k)).card = rootLeafShift (nodeAt i k) := by
  rw [leavesBelow_nodeAt, rootLeafShift, bintreePostorderHeight_nodeAt]
  split
  . rfl
  . rw [Nat.card_Ico, Nat.mul_add, Nat.mul_one, Nat.add_sub_cancel_left]

theorem mem_leavesBelow
    : x ∈ leavesBelow (nodeAt i k) ↔ leafPos x ∈ below (nodeAt i k) := by
  have hpow := Nat.two_pow_pos k
  rw [leavesBelow_nodeAt, mem_below, ← nodeAt_zero]
  rcases k with _ | k
  . rw [if_pos rfl]
    refine ⟨fun h => absurd h (Finset.notMem_empty _), ?_⟩
    rintro ⟨j, l, t, -, hk, -⟩
    omega
  . rw [if_neg (Nat.succ_ne_zero k), Finset.mem_Ico]
    constructor
    . rintro ⟨hlower, hupper⟩
      refine ⟨x, 0, k, rfl, (Nat.zero_add _).symm, ?_⟩
      rw [eq_comm, Nat.div_eq_iff hpow, Nat.mul_comm i]
      rw [Nat.mul_add] at hupper
      omega
    . rintro ⟨j, l, t, heq, hk, rfl⟩
      obtain ⟨rfl, rfl⟩ := nodeAt_inj heq
      obtain rfl : k = t := by omega
      exact ⟨Nat.mul_div_le x _, Nat.lt_mul_div_succ x hpow⟩

theorem Rooted.card_biUnion_leavesBelow {roots : Finset Nat} (h : Rooted p) (hroots : roots ⊆ p.bitmap)
    : (roots.biUnion leavesBelow).card = ∑ root ∈ roots, rootLeafShift root := by
  apply card_biUnion_eq
  . intro root hroot
    obtain ⟨i, k, rfl⟩ := h.exists_nodeAt (hroots hroot)
    exact card_leavesBelow i k
  . intro root hroot root' hroot' j hj hj'
    obtain ⟨i, k, rfl⟩ := h.exists_nodeAt (hroots hroot)
    obtain ⟨i', k', rfl⟩ := h.exists_nodeAt (hroots hroot')
    exact h.root_unique (hroots hroot) (hroots hroot') (mem_leavesBelow.mp hj) (mem_leavesBelow.mp hj')

theorem Rooted.card_leaves (h : Rooted p) (hcached : Cached p) (hpos : p.compacts pos = false)
    (hm : ∀ j, leafPos j ≤ pos ↔ j < m)
    : ((Finset.range m).filter fun j => p.compacts (leafPos j) = true).card = p.getLeafShift pos := by
  have hunion : (Finset.range m).filter (fun j => p.compacts (leafPos j) = true)
      = (p.bitmap.filter (· ≤ pos)).biUnion leavesBelow := by
    ext j
    simp only [Finset.mem_filter, Finset.mem_range, Finset.mem_biUnion, ← hm]
    rw [h.compacts_iff]
    constructor
    . rintro ⟨hle, root, hroot, hj⟩
      obtain ⟨i, k, rfl⟩ := h.exists_nodeAt hroot
      exact ⟨_, ⟨hroot, h.root_le hpos hroot hj hle⟩, mem_leavesBelow.mpr hj⟩
    . rintro ⟨root, ⟨hroot, hle⟩, hj⟩
      obtain ⟨i, k, rfl⟩ := h.exists_nodeAt hroot
      have hbelow := mem_leavesBelow.mp hj
      have hupper := (Finset.mem_Ioo.mp hbelow).2
      exact ⟨by omega, _, hroot, hbelow⟩
  rw [hunion, hcached.leafShift]
  exact h.card_biUnion_leavesBelow (Finset.filter_subset _ _)

theorem Rooted.lt_of_below (h : Rooted p) (hpos : p.compacts pos = false)
    (hroot : root ∈ p.bitmap) (hlt : pos < root) (hx : x ∈ below root)
    : pos < x := by
  by_contra hle
  have := h.root_le hpos hroot hx (Nat.le_of_not_lt hle)
  omega

theorem sum_roots_le (roots : Finset Nat) (g : Nat → Nat) (hle : pos ≤ x)
    : ∑ root ∈ roots with root ≤ x, g root
        =
      ∑ root ∈ roots with root ≤ pos, g root + ∑ root ∈ roots with pos < root ∧ root ≤ x, g root := by
  rw [← Finset.sum_filter_add_sum_filter_not (roots.filter (· ≤ x)) (· ≤ pos), Finset.filter_filter,
    Finset.filter_filter]
  congr 2
  . ext root
    simp only [Finset.mem_filter]
    exact and_congr_right fun _ => ⟨And.right, fun h => ⟨h.trans hle, h⟩⟩
  . ext root
    simp only [Finset.mem_filter, Nat.not_le]
    exact and_congr_right fun _ => and_comm

theorem Rooted.getShift_add_le (h : Rooted p) (hcached : Cached p) (hpos : p.compacts pos = false)
    (hle : pos ≤ x)
    : p.getShift x + pos ≤ x + p.getShift pos := by
  have hsub : (p.bitmap.filter fun root => pos < root ∧ root ≤ x).biUnion below ⊆ Finset.Ioc pos x := by
    intro y hy
    obtain ⟨root, hroot, hy⟩ := Finset.mem_biUnion.mp hy
    obtain ⟨hroot, hlt, hroot'⟩ := Finset.mem_filter.mp hroot
    have hupper := (Finset.mem_Ioo.mp hy).2
    exact Finset.mem_Ioc.mpr ⟨h.lt_of_below hpos hroot hlt hy, by omega⟩
  have hcard := Finset.card_le_card hsub
  rw [h.card_biUnion_below (Finset.filter_subset _ _), Nat.card_Ioc] at hcard
  rw [hcached.shift, hcached.shift, sum_roots_le p.bitmap rootShift hle]
  omega

theorem Rooted.getLeafShift_add_le (h : Rooted p) (hcached : Cached p)
    (hj : p.compacts (leafPos j) = false) (hlt : j < m)
    : p.getLeafShift (mmrSize m) + (j + 1) ≤ m + p.getLeafShift (leafPos j) := by
  have hsub : (p.bitmap.filter fun root => leafPos j < root ∧ root ≤ mmrSize m).biUnion leavesBelow
      ⊆ Finset.Ico (j + 1) m := by
    intro y hy
    obtain ⟨root, hroot, hy⟩ := Finset.mem_biUnion.mp hy
    obtain ⟨hroot, hroot', hle⟩ := Finset.mem_filter.mp hroot
    obtain ⟨i, k, rfl⟩ := h.exists_nodeAt hroot
    have hbelow := mem_leavesBelow.mp hy
    have hlower := h.lt_of_below hj hroot hroot' hbelow
    have hupper := (Finset.mem_Ioo.mp hbelow).2
    have hstrict : StrictMono leafPos := fun _ _ => leafPos_lt_leafPos
    refine Finset.mem_Ico.mpr ⟨hstrict.lt_iff_lt.mp hlower, leafPos_le_mmrSize_iff.mp ?_⟩
    omega
  have hcard := Finset.card_le_card hsub
  rw [h.card_biUnion_leavesBelow (Finset.filter_subset _ _), Nat.card_Ico] at hcard
  rw [hcached.leafShift, hcached.leafShift,
    sum_roots_le p.bitmap rootLeafShift (leafPos_le_mmrSize_iff.mpr hlt)]
  omega

end

def kept (p : PruneList) (n : Nat) : List Nat :=
  (List.range' 1 (mmrSize n)).filter fun pos => !p.compacts pos

def keptLeaves (p : PruneList) (n : Nat) : List Nat :=
  (List.range n).filter fun j => !p.compacts (leafPos j)

section

variable {p : PruneList} {s : Finset Nat} {n m pos j : Nat}

theorem pairwise_kept (p : PruneList) (n : Nat)
    : (p.kept n).Pairwise (· < ·) := List.Pairwise.filter _ (List.pairwise_lt_range' 1)

theorem pairwise_keptLeaves (p : PruneList) (n : Nat)
    : (p.keptLeaves n).Pairwise (· < ·) := List.pairwise_lt_range.filter _

theorem mem_kept
    : pos ∈ p.kept n ↔ (0 < pos ∧ pos ≤ mmrSize n) ∧ p.compacts pos = false := by
  unfold kept
  rw [List.mem_filter, List.mem_range'_1, Bool.not_eq_true']
  exact and_congr_left fun _ => by omega

theorem mem_keptLeaves
    : j ∈ p.keptLeaves n ↔ j < n ∧ p.compacts (leafPos j) = false := by
  unfold keptLeaves
  rw [List.mem_filter, List.mem_range, Bool.not_eq_true']

theorem leafPos_mem_kept
    : leafPos j ∈ p.kept n ↔ j ∈ p.keptLeaves n := by
  rw [mem_keptLeaves, mem_kept, leafPos_le_mmrSize_iff]
  exact and_congr_left fun _ => ⟨And.right, fun hlt => ⟨Nat.succ_pos _, hlt⟩⟩

theorem kept_prefix (p : PruneList) (h : m ≤ n)
    : p.kept m <+: p.kept n := by
  have hle := mmrSize_le_mmrSize h
  refine List.IsPrefix.filter _ ⟨List.range' (1 + mmrSize m) (mmrSize n - mmrSize m), ?_⟩
  rw [List.range'_append_1, Nat.add_sub_cancel' hle]

theorem keptLeaves_prefix (p : PruneList) (h : m ≤ n)
    : p.keptLeaves m <+: p.keptLeaves n := by
  refine List.IsPrefix.filter _ ?_
  obtain ⟨d, rfl⟩ := Nat.exists_eq_add_of_le h
  rw [List.range_add]
  exact List.prefix_append _ _

theorem Rooted.length_filter_kept (h : Rooted p) (hcached : Cached p) (hpos : p.compacts pos = false)
    (hle : pos ≤ mmrSize n)
    : ((p.kept n).filter (· ≤ pos)).length + p.getShift pos = pos := by
  have hset : ((p.kept n).filter (· ≤ pos)).toFinset
      = (Finset.Icc 1 pos).filter (fun x => ¬ p.compacts x = true) := by
    ext x
    simp only [List.mem_toFinset, List.mem_filter, mem_kept, decide_eq_true_eq, Finset.mem_filter,
      Finset.mem_Icc, Bool.not_eq_true]
    constructor
    . rintro ⟨⟨⟨hx, -⟩, hcompacts⟩, hxpos⟩
      exact ⟨⟨hx, hxpos⟩, hcompacts⟩
    . rintro ⟨⟨hx, hxpos⟩, hcompacts⟩
      exact ⟨⟨⟨hx, hxpos.trans hle⟩, hcompacts⟩, hxpos⟩
  have hnodup : ((p.kept n).filter (· ≤ pos)).Nodup :=
    ((pairwise_kept p n).imp (fun h => Nat.ne_of_lt h)).filter _
  have hsplit := Finset.card_filter_add_card_filter_not (s := Finset.Icc 1 pos)
    (fun x => p.compacts x = true)
  rw [h.card_compacts hcached hpos, Nat.card_Icc, ← hset, List.toFinset_card_of_nodup hnodup] at hsplit
  omega

theorem Rooted.length_filter_keptLeaves (h : Rooted p) (hcached : Cached p)
    (hpos : p.compacts pos = false) (hm : ∀ j, leafPos j ≤ pos ↔ j < m) (hmn : m ≤ n)
    : ((p.keptLeaves n).filter (· < m)).length + p.getLeafShift pos = m := by
  have hset : ((p.keptLeaves n).filter (· < m)).toFinset
      = (Finset.range m).filter (fun j => ¬ p.compacts (leafPos j) = true) := by
    ext j
    simp only [List.mem_toFinset, List.mem_filter, mem_keptLeaves, decide_eq_true_eq, Finset.mem_filter,
      Finset.mem_range, Bool.not_eq_true]
    constructor
    . rintro ⟨⟨-, hcompacts⟩, hj⟩
      exact ⟨hj, hcompacts⟩
    . rintro ⟨hj, hcompacts⟩
      exact ⟨⟨by omega, hcompacts⟩, hj⟩
  have hnodup : ((p.keptLeaves n).filter (· < m)).Nodup :=
    ((pairwise_keptLeaves p n).imp (fun h => Nat.ne_of_lt h)).filter _
  have hsplit := Finset.card_filter_add_card_filter_not (s := Finset.range m)
    (fun j => p.compacts (leafPos j) = true)
  rw [h.card_leaves hcached hpos hm, Finset.card_range, ← hset,
    List.toFinset_card_of_nodup hnodup] at hsplit
  omega

theorem Rooted.length_kept (h : Rooted p) (hcached : Cached p) (hroots : ∀ root ∈ p.bitmap, root ≤ mmrSize n)
    : (p.kept n).length + p.getShift (mmrSize n) = mmrSize n := by
  have hall : (p.kept n).filter (· ≤ mmrSize n) = p.kept n := by
    rw [List.filter_eq_self]
    intro x hx
    exact decide_eq_true (mem_kept.mp hx).1.2
  have hlength := h.length_filter_kept hcached (h.not_compacts hroots) (Nat.le_refl _)
  rwa [hall] at hlength

theorem Rooted.length_keptLeaves (h : Rooted p) (hcached : Cached p)
    (hroots : ∀ root ∈ p.bitmap, root ≤ mmrSize n)
    : (p.keptLeaves n).length + p.getLeafShift (mmrSize n) = n := by
  have hall : (p.keptLeaves n).filter (· < n) = p.keptLeaves n := by
    rw [List.filter_eq_self]
    intro j hj
    exact decide_eq_true (mem_keptLeaves.mp hj).1
  have hlength := h.length_filter_keptLeaves hcached (h.not_compacts hroots)
    (fun _ => leafPos_le_mmrSize_iff) (Nat.le_refl n)
  rwa [hall] at hlength

theorem Prunes.length_kept (h : Prunes p s) (hcached : Cached p) (hs : s ⊆ Finset.range n)
    : (p.kept n).length + p.getShift (mmrSize n) = mmrSize n :=
  h.rooted.length_kept hcached fun _ hroot => h.bitmap_le hs hroot

theorem Prunes.length_keptLeaves (h : Prunes p s) (hcached : Cached p) (hs : s ⊆ Finset.range n)
    : (p.keptLeaves n).length + p.getLeafShift (mmrSize n) = n :=
  h.rooted.length_keptLeaves hcached fun _ hroot => h.bitmap_le hs hroot

theorem Rooted.getElem?_kept (h : Rooted p) (hcached : Cached p) (hpos : pos ∈ p.kept n)
    : p.getShift pos < pos ∧ (p.kept n)[pos - p.getShift pos - 1]? = some pos := by
  obtain ⟨⟨-, hle⟩, hcompacts⟩ := mem_kept.mp hpos
  have hlength := h.length_filter_kept hcached hcompacts hle
  have hone : 0 < ((p.kept n).filter (· ≤ pos)).length :=
    List.length_pos_of_mem (List.mem_filter.mpr ⟨hpos, by simp⟩)
  refine ⟨by omega, ?_⟩
  rw [show pos - p.getShift pos = ((p.kept n).filter (· ≤ pos)).length by omega]
  exact Rank.getElem?_length_filter (pairwise_kept p n) hpos

theorem Rooted.getElem?_keptLeaves (h : Rooted p) (hcached : Cached p) (hj : j ∈ p.keptLeaves n)
    : p.getLeafShift (leafPos j) < j + 1
        ∧ (p.keptLeaves n)[j + 1 - p.getLeafShift (leafPos j) - 1]? = some j := by
  obtain ⟨hlt, hcompacts⟩ := mem_keptLeaves.mp hj
  have hstrict : StrictMono leafPos := fun _ _ => leafPos_lt_leafPos
  have hlength : ((p.keptLeaves n).filter (· < j + 1)).length + p.getLeafShift (leafPos j) = j + 1 :=
    h.length_filter_keptLeaves hcached hcompacts
      (fun i => hstrict.le_iff_le.trans Nat.lt_succ_iff.symm) hlt
  simp only [Nat.lt_succ_iff] at hlength
  have hone : 0 < ((p.keptLeaves n).filter (· ≤ j)).length :=
    List.length_pos_of_mem (List.mem_filter.mpr ⟨hj, by simp⟩)
  refine ⟨by omega, ?_⟩
  rw [show j + 1 - p.getLeafShift (leafPos j) = ((p.keptLeaves n).filter (· ≤ j)).length by omega]
  exact Rank.getElem?_length_filter (pairwise_keptLeaves p n) hj

end

end PruneList
end Epic
