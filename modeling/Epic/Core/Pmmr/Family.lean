import Epic.Core.Pmmr.Subtree
import Mathlib.Logic.Function.Iterate

/-!
This module contains how the functions that go up from a node agree. The parent, the sibling, the path and
the branch of a node are each computed from the peaks before it, the last two in loops of their own.
-/

namespace Epic
namespace Pmmr

variable {i k m lastPos pos fuel : Nat}

def parentOf (pos : Nat) : Nat := (family pos).1

def ancestor (t pos : Nat) : Nat := parentOf^[t] pos

theorem family_ancestor (t pos : Nat)
    : (family (ancestor t pos)).1 = ancestor (t + 1) pos := by
  unfold ancestor
  rw [Function.iterate_succ_apply', parentOf]

theorem ancestor_nodeAt (t i k : Nat)
    : ancestor t (nodeAt i k) = nodeAt (i / 2 ^ t) (k + t) := by
  unfold ancestor
  induction t with
  | zero => rw [Function.iterate_zero, id, Nat.pow_zero, Nat.div_one, Nat.add_zero]
  | succ t ih =>
    rw [Function.iterate_succ_apply', ih, parentOf, family_nodeAt, ← DyadicBlock.div_two_pow_succ, Nat.add_assoc]

theorem family_family_nodeAt (i k : Nat)
    : family (family (nodeAt i k)).2 = ((family (nodeAt i k)).1, nodeAt i k) := by
  rw [family_nodeAt, family_nodeAt, siblingOf_siblingOf, ← siblingOf_half]

theorem isLeftSibling_family_nodeAt (i k : Nat)
    : isLeftSibling (family (nodeAt i k)).2 = !isLeftSibling (nodeAt i k) := by
  rw [family_nodeAt, isLeftSibling_nodeAt, isLeftSibling_nodeAt]
  unfold siblingOf
  rcases Nat.mod_two_eq_zero_or_one i with hi | hi
  . have : (i + 1) % 2 = 1 := by omega
    simp [hi, this]
  . have : (i - 1) % 2 = 0 := by omega
    simp [hi, this]

theorem sibling_lt_parent (pos : Nat)
    : (family pos).2 < (family pos).1 := by
  have hpow := Nat.two_pow_pos (peakMapHeight (pos - 1)).2
  unfold family
  dsimp only
  split
  . dsimp only
    omega
  . dsimp only
    omega

structure Climbs (m k lastPos count : Nat) : Prop where
  le : ∀ t < count, nodeAt (m / 2 ^ (k + t)) (k + t) ≤ lastPos
  lt : lastPos < nodeAt (m / 2 ^ (k + count)) (k + count)

theorem Climbs.cons (hle : nodeAt (m / 2 ^ k) k ≤ lastPos) (h : Climbs m (k + 1) lastPos count)
    : Climbs m k lastPos (count + 1) := by
  have hshift (t : Nat) : k + (t + 1) = k + 1 + t := by omega
  refine ⟨fun t ht => ?_, by rw [hshift]; exact h.lt⟩
  rcases t with _ | t
  . exact hle
  . rw [hshift]
    exact h.le t (by omega)

theorem path_go_eq (hfuel : lastPos < fuel + nodeAt (m / 2 ^ k) k)
    : ∃ count, Climbs m k lastPos count
        ∧ path.go m lastPos fuel k (nodeAt (m / 2 ^ k) k)
            = (List.range count).map fun t => nodeAt (m / 2 ^ (k + t)) (k + t) := by
  induction fuel generalizing k with
  | zero => exact ⟨0, ⟨fun t ht => absurd ht (Nat.not_lt_zero t), by simpa using hfuel⟩, rfl⟩
  | succ fuel ih =>
    have hlt := nodeAt_lt_parent (m / 2 ^ k) k
    rw [← DyadicBlock.div_two_pow_succ] at hlt
    rw [path_go_nodeAt]
    split
    . next hle =>
      obtain ⟨count, hclimbs, hpath⟩ := ih (k := k + 1) (by omega)
      refine ⟨count + 1, hclimbs.cons hle, ?_⟩
      rw [hpath, List.range_succ_eq_map, List.map_cons, List.map_map]
      congr 1
      apply List.map_congr_left
      intro t _
      rw [Function.comp_apply, Nat.succ_eq_add_one, show k + (t + 1) = k + 1 + t by omega]
    . next hgt => exact ⟨0, ⟨fun t ht => absurd ht (Nat.not_lt_zero t), Nat.lt_of_not_le hgt⟩, rfl⟩

theorem familyBranch_go_eq (hfuel : lastPos < fuel + nodeAt (m / 2 ^ k) k)
    (h : Climbs m k lastPos (count + 1))
    : familyBranch.go m lastPos fuel k (nodeAt (m / 2 ^ k) k)
        = (List.range count).map fun t => family (nodeAt (m / 2 ^ (k + t)) (k + t)) := by
  induction count generalizing fuel k with
  | zero =>
    rcases fuel with _ | fuel
    . rfl
    . have hlt := h.lt
      rw [familyBranch_go_nodeAt, if_neg (Nat.not_le_of_lt hlt)]
      rfl
  | succ count ih =>
    have hfirst := h.le 0 (by omega)
    have hsecond := h.le 1 (by omega)
    obtain ⟨fuel, rfl⟩ : ∃ rounds, fuel = rounds + 1 := ⟨fuel - 1, by simp at hfirst; omega⟩
    have hlt := nodeAt_lt_parent (m / 2 ^ k) k
    rw [← DyadicBlock.div_two_pow_succ] at hlt
    have hshift (t : Nat) : k + (t + 1) = k + 1 + t := by omega
    have hrest : Climbs m (k + 1) lastPos (count + 1) := by
      refine ⟨fun t ht => ?_, ?_⟩
      . rw [← hshift]
        exact h.le (t + 1) (by omega)
      . rw [← hshift]
        exact h.lt
    rw [familyBranch_go_nodeAt, if_pos hsecond, ih (by omega) hrest, List.range_succ_eq_map, List.map_cons,
      List.map_map, Nat.add_zero, family_nodeAt, ← DyadicBlock.div_two_pow_succ]
    congr 1
    apply List.map_congr_left
    intro t _
    rw [Function.comp_apply, Nat.succ_eq_add_one, show k + (t + 1) = k + 1 + t by omega]

-- a node within a mountain range, with the ancestors that it has there
structure Ascends (pos lastPos count : Nat) : Prop where
  path : path pos lastPos = (List.range (count + 1)).map fun t => ancestor t pos
  within : ∀ t ≤ count, ancestor t pos ≤ lastPos
  outside : lastPos < ancestor (count + 1) pos
  branch : familyBranch pos lastPos = (List.range count).map fun t => family (ancestor t pos)
  both : ∀ t < count, (family (ancestor t pos)).1 ≤ lastPos ∧ (family (ancestor t pos)).2 ≤ lastPos

theorem exists_ascends (hpos : 1 ≤ pos) (hle : pos ≤ lastPos)
    : ∃ count, Ascends pos lastPos count := by
  obtain ⟨i, k, rfl⟩ := exists_eq_nodeAt hpos
  have hup (t : Nat) : nodeAt ((2 ^ k * (i + 1) - 1) / 2 ^ (k + t)) (k + t) = ancestor t (nodeAt i k) := by
    rw [ancestor_nodeAt, DyadicBlock.div_two_pow_add, DyadicBlock.last_div]
  have hstart : nodeAt ((2 ^ k * (i + 1) - 1) / 2 ^ k) k = nodeAt i k := hup 0
  have hfuel : lastPos < lastPos + 1 + nodeAt ((2 ^ k * (i + 1) - 1) / 2 ^ k) k := by omega
  obtain ⟨_ | count, hclimbs, hpath⟩ := path_go_eq hfuel
  . have hlt := hclimbs.lt
    rw [hup] at hlt
    exact absurd hle (Nat.not_le_of_lt hlt)
  have hbranch := familyBranch_go_eq hfuel hclimbs
  rw [hstart] at hpath hbranch
  have hwithin (t : Nat) (ht : t ≤ count) : ancestor t (nodeAt i k) ≤ lastPos := by
    rw [← hup]
    exact hclimbs.le t (by omega)
  refine ⟨count, ?_, hwithin, ?_, ?_, fun t ht => ⟨?_, ?_⟩⟩
  . simp only [hup] at hpath
    unfold path
    rw [peakMapHeight_nodeAt]
    exact hpath
  . rw [← hup]
    exact hclimbs.lt
  . simp only [hup] at hbranch
    unfold familyBranch
    rw [peakMapHeight_nodeAt]
    exact hbranch
  . rw [family_ancestor]
    exact hwithin (t + 1) ht
  . have hlt := sibling_lt_parent (ancestor t (nodeAt i k))
    rw [family_ancestor] at hlt
    exact hlt.le.trans (hwithin (t + 1) ht)

theorem family_coherent (hpos : 1 ≤ pos)
    : family (family pos).2 = ((family pos).1, pos)
        ∧ bintreePostorderHeight (family pos).1 = bintreePostorderHeight pos + 1
        ∧ bintreePostorderHeight (family pos).2 = bintreePostorderHeight pos
        ∧ isLeftSibling (family pos).2 = !isLeftSibling pos
        ∧ ∀ lastPos, pos ≤ lastPos → ∃ count, Ascends pos lastPos count := by
  obtain ⟨i, k, rfl⟩ := exists_eq_nodeAt hpos
  refine ⟨family_family_nodeAt i k, ?_, ?_, isLeftSibling_family_nodeAt i k,
    fun lastPos hle => exists_ascends hpos hle⟩
  . rw [family_nodeAt, bintreePostorderHeight_nodeAt, bintreePostorderHeight_nodeAt]
  . rw [family_nodeAt, bintreePostorderHeight_nodeAt, bintreePostorderHeight_nodeAt]

-- the leaf at 4 is the left one below 6, which is the right one below 7
theorem family_coherent_four
    : family (family 4).2 = ((family 4).1, 4)
        ∧ family 4 = (6, 5) ∧ path 4 10 = [4, 6, 7] ∧ familyBranch 4 10 = [(6, 5), (7, 3)]
        ∧ ∃ count, Ascends 4 10 count := by
  have hpos : 1 ≤ 4 := by decide
  obtain ⟨hfamily, -, -, -, hascends⟩ := family_coherent hpos
  exact ⟨hfamily, by decide, by decide, by decide, hascends 10 (by decide)⟩

end Pmmr
end Epic
