import Epic.Core.Pmmr.Tree
import Epic.Util.DyadicBlock

/-!
This module contains the subtrees below the nodes of a Merkle mountain range. The nodes of a subtree have
the positions from that of its first leaf up to that of the node itself.
-/

namespace Epic
namespace Pmmr

variable {i j k l m t pos lastPos x : Nat}

theorem siblingOf_ne (i : Nat)
    : i ≠ siblingOf i := by
  unfold siblingOf
  split <;> omega

theorem siblingOf_half (i : Nat)
    : i / 2 = siblingOf i / 2 := by
  unfold siblingOf
  split <;> omega

theorem siblingOf_siblingOf (i : Nat)
    : siblingOf (siblingOf i) = i := by
  unfold siblingOf
  split <;> split <;> omega

theorem nodeAt_lt_above (i k t : Nat)
    : nodeAt i k < nodeAt (i / 2 ^ (t + 1)) (k + (t + 1)) := by
  induction t with
  | zero => exact nodeAt_lt_parent i k
  | succ t ih =>
    refine ih.trans ?_
    rw [DyadicBlock.div_two_pow_succ i (t + 1)]
    exact nodeAt_lt_parent _ _

theorem nodeAt_le_above (i k t : Nat)
    : nodeAt i k ≤ nodeAt (i / 2 ^ t) (k + t) := by
  rcases t with _ | t
  . rw [Nat.pow_zero, Nat.div_one, Nat.add_zero]
  . exact (nodeAt_lt_above i k t).le

theorem mmrSize_lt_nodeAt_below (i k t : Nat)
    : mmrSize (2 ^ (k + t) * (i / 2 ^ t)) < nodeAt i k := by
  have hle : 2 ^ (k + t) * (i / 2 ^ t) ≤ 2 ^ k * i := by
    rw [Nat.pow_add, Nat.mul_assoc]
    exact Nat.mul_le_mul_left _ (Nat.mul_div_le i (2 ^ t))
  have hsize := mmrSize_le_mmrSize hle
  have hpow := Nat.two_pow_pos (k + 1)
  have hpow' : 2 ≤ 2 ^ (k + 1) := by
    rw [Nat.pow_succ]
    have := Nat.two_pow_pos k
    omega
  unfold nodeAt
  omega

theorem exists_of_between (hlower : mmrSize (2 ^ k * i) < pos) (hupper : pos ≤ nodeAt i k)
    : ∃ j l t, pos = nodeAt j l ∧ k = l + t ∧ i = j / 2 ^ t := by
  obtain ⟨j, l, rfl⟩ := exists_eq_nodeAt (by omega : 0 < pos)
  have habove : 2 ^ k * i < 2 ^ l * (j + 1) := by
    by_contra hle
    have := nodeAt_le_mmrSize_iff.mpr (Nat.le_of_not_lt hle)
    omega
  have hbelow : 2 ^ l * (j + 1) ≤ 2 ^ k * (i + 1) :=
    nodeAt_le_mmrSize_iff.mp (hupper.trans (nodeAt_le i k))
  rcases Nat.lt_or_ge k l with hlt | hge
  . -- a node above would come later
    obtain ⟨t, rfl⟩ := Nat.exists_eq_add_of_lt hlt
    have hpow := Nat.two_pow_pos k
    have heq : 2 ^ (k + t + 1) * (j + 1) = 2 ^ k * (2 ^ (t + 1) * (j + 1)) := by ring
    rw [heq] at habove hbelow
    have hlt' := Nat.lt_of_mul_lt_mul_left habove
    have hle' := Nat.le_of_mul_le_mul_left hbelow hpow
    have hsame : i + 1 = 2 ^ (t + 1) * (j + 1) := by omega
    rw [nodeAt_eq, nodeAt_eq, heq, ← hsame] at hupper
    omega
  . obtain ⟨t, rfl⟩ := Nat.exists_eq_add_of_le hge
    have hpow := Nat.two_pow_pos l
    rw [Nat.pow_add, Nat.mul_assoc] at habove hbelow
    have hlt' := Nat.lt_of_mul_lt_mul_left habove
    have hle' := Nat.le_of_mul_le_mul_left hbelow hpow
    refine ⟨j, l, t, rfl, rfl, ?_⟩
    rw [eq_comm, Nat.div_eq_iff (Nat.two_pow_pos t)]
    rw [Nat.mul_add] at hle'
    rw [Nat.mul_comm i]
    omega

theorem family_of_testBit (m k : Nat)
    : (if m.testBit k then
          (nodeAt (m / 2 ^ k) k + 1, nodeAt (m / 2 ^ k) k + 1 - 2 * 2 ^ k)
        else
          (nodeAt (m / 2 ^ k) k + 2 * 2 ^ k, nodeAt (m / 2 ^ k) k + 2 * 2 ^ k - 1))
        =
      (nodeAt (m / 2 ^ (k + 1)) (k + 1), nodeAt (siblingOf (m / 2 ^ k)) k) := by
  have hfamily := family_nodeAt (m / 2 ^ k) k
  have hbit : m.testBit k = (2 ^ k * (m / 2 ^ k + 1) - 1).testBit k := by
    rw [testBit_nodeAt, Nat.testBit_eq_decide_div_mod_eq]
  rw [DyadicBlock.div_two_pow_succ, ← hfamily, hbit]
  simp only [family, peakMapHeight_nodeAt]

theorem path_go_nodeAt (m lastPos fuel k : Nat)
    : path.go m lastPos (fuel + 1) k (nodeAt (m / 2 ^ k) k)
        =
      if nodeAt (m / 2 ^ k) k ≤ lastPos then
        nodeAt (m / 2 ^ k) k :: path.go m lastPos fuel (k + 1) (nodeAt (m / 2 ^ (k + 1)) (k + 1))
      else
        [] := by
  have hparent : nodeAt (m / 2 ^ k) k + (if m.testBit k then 1 else 2 * 2 ^ k)
      = nodeAt (m / 2 ^ (k + 1)) (k + 1) := by
    have hfamily := congrArg Prod.fst (family_of_testBit m k)
    dsimp only at hfamily
    rw [← hfamily]
    split <;> rfl
  rw [path.go]
  dsimp only
  rw [hparent]

theorem familyBranch_go_nodeAt (m lastPos fuel k : Nat)
    : familyBranch.go m lastPos (fuel + 1) k (nodeAt (m / 2 ^ k) k)
        =
      if nodeAt (m / 2 ^ (k + 1)) (k + 1) ≤ lastPos then
        (nodeAt (m / 2 ^ (k + 1)) (k + 1), nodeAt (siblingOf (m / 2 ^ k)) k)
          :: familyBranch.go m lastPos fuel (k + 1) (nodeAt (m / 2 ^ (k + 1)) (k + 1))
      else
        [] := by
  have hlt := nodeAt_lt_parent (m / 2 ^ k) k
  rw [← DyadicBlock.div_two_pow_succ] at hlt
  rw [familyBranch.go]
  dsimp only
  rw [family_of_testBit]
  by_cases hle : nodeAt (m / 2 ^ (k + 1)) (k + 1) ≤ lastPos
  . rw [if_pos (by omega), if_neg (by omega), if_pos hle]
  . rw [if_neg hle]
    split
    . rw [if_pos (by omega)]
    . rfl

theorem mem_path_go (hfuel : lastPos < fuel + nodeAt (m / 2 ^ k) k)
    : x ∈ path.go m lastPos fuel k (nodeAt (m / 2 ^ k) k)
        ↔
      ∃ t, x = nodeAt (m / 2 ^ (k + t)) (k + t) ∧ x ≤ lastPos := by
  induction fuel generalizing k with
  | zero =>
    refine ⟨fun h => absurd h List.not_mem_nil, ?_⟩
    rintro ⟨t, rfl, hle⟩
    have habove := nodeAt_le_above (m / 2 ^ k) k t
    rw [← DyadicBlock.div_two_pow_add] at habove
    omega
  | succ fuel ih =>
    have hlt := nodeAt_lt_parent (m / 2 ^ k) k
    rw [← DyadicBlock.div_two_pow_succ] at hlt
    rw [path_go_nodeAt]
    split
    . next hle =>
      rw [List.mem_cons, ih (by omega)]
      constructor
      . rintro (rfl | ⟨t, rfl, hx⟩)
        . exact ⟨0, rfl, hle⟩
        . exact ⟨t + 1, by rw [Nat.add_assoc, Nat.add_comm 1 t], hx⟩
      . rintro ⟨_ | t, rfl, hx⟩
        . exact .inl rfl
        . exact .inr ⟨t, by rw [Nat.add_assoc, Nat.add_comm 1 t], hx⟩
    . next hnot =>
      refine ⟨fun h => absurd h List.not_mem_nil, ?_⟩
      rintro ⟨t, rfl, hle⟩
      have habove := nodeAt_le_above (m / 2 ^ k) k t
      rw [← DyadicBlock.div_two_pow_add] at habove
      omega

theorem mem_path
    : x ∈ path (nodeAt i k) lastPos
        ↔
      ∃ t, x = nodeAt (i / 2 ^ t) (k + t) ∧ x ≤ lastPos := by
  have hmem : x ∈ path.go (2 ^ k * (i + 1) - 1) lastPos (lastPos + 1) k
        (nodeAt ((2 ^ k * (i + 1) - 1) / 2 ^ k) k)
      ↔ ∃ t, x = nodeAt ((2 ^ k * (i + 1) - 1) / 2 ^ (k + t)) (k + t) ∧ x ≤ lastPos :=
    mem_path_go (by omega)
  simp only [DyadicBlock.div_two_pow_add, DyadicBlock.last_div] at hmem
  unfold path
  rw [peakMapHeight_nodeAt]
  exact hmem

end Pmmr
end Epic
