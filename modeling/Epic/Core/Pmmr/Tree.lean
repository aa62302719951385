import Epic.Core.Pmmr.Position

/-!
This module contains the trees that the positions of a Merkle mountain range are the nodes of: the i-th
node of height k stands over the leaves from 2 ^ k * i on.
-/

namespace Epic
namespace Pmmr

def isLeftSibling (pos : Nat) : Bool :=
  let (peakMap, height) := peakMapHeight (pos - 1)
  !peakMap.testBit height

def familyBranch.go (peakMap lastPos fuel height current : Nat) : List (Nat × Nat) :=
  match fuel with
  | 0 => []
  | fuel + 1 =>
    if current < lastPos then
      let (current, sibling) :=
        if peakMap.testBit height then
          (current + 1, current + 1 - 2 * 2 ^ height)
        else
          (current + 2 * 2 ^ height, current + 2 * 2 ^ height - 1)
      if current > lastPos then
        []
      else
        (current, sibling) :: go peakMap lastPos fuel (height + 1) current
    else
      []

def familyBranch (pos lastPos : Nat) : List (Nat × Nat) :=
  let (peakMap, height) := peakMapHeight (pos - 1)
  familyBranch.go peakMap lastPos (lastPos + 1) height pos

def nodeAt (i k : Nat) : Nat := mmrSize (2 ^ k * i) + (2 ^ (k + 1) - 1)

def siblingOf (i : Nat) : Nat := if i % 2 = 1 then i - 1 else i + 1

theorem mmrSize_two_pow_mul (k m : Nat)
    : mmrSize (2 ^ k * m) + 2 * m = 2 ^ (k + 1) * m + mmrSize m := by
  induction k with
  | zero =>
    rw [Nat.pow_zero, Nat.one_mul]
    ring
  | succ k ih =>
    have hdouble : 2 ^ (k + 1) * m = 2 * (2 ^ k * m) := by ring
    have hdouble' : 2 ^ (k + 1 + 1) * m = 2 ^ (k + 1) * m + 2 ^ (k + 1) * m := by ring
    rw [mmrSize_eq, hdouble, Nat.mul_div_cancel_left _ (by omega), ← hdouble]
    omega

theorem nodeAt_zero (n : Nat)
    : nodeAt n 0 = leafPos n := by
  simp [nodeAt, leafPos]

theorem nodeAt_eq (i k : Nat)
    : nodeAt i k = mmrSize (2 ^ k * (i + 1) - 1) + k + 1 := by
  have hpow : 0 < 2 ^ k := by positivity
  have hsplit : 2 ^ k * (i + 1) - 1 = 2 ^ k * i + (2 ^ k - 1) := by
    rw [Nat.mul_add]
    omega
  have hlast := mmrSize_two_pow_sub_one k
  rw [hsplit, mmrSize_two_pow_mul_add (by omega), nodeAt, Nat.pow_succ]
  omega

theorem nodeAt_le (i k : Nat)
    : nodeAt i k ≤ mmrSize (2 ^ k * (i + 1)) := by
  have hnode := mmrSize_two_pow_mul k i
  have hnext := mmrSize_two_pow_mul k (i + 1)
  have hlt := mmrSize_lt_succ i
  have hpow : 0 < 2 ^ (k + 1) := by positivity
  have hsplit : 2 ^ (k + 1) * (i + 1) = 2 ^ (k + 1) * i + 2 ^ (k + 1) := by ring
  unfold nodeAt
  omega

theorem nodeAt_pos (i k : Nat)
    : 0 < nodeAt i k := by
  rw [nodeAt_eq]
  omega

theorem peakMapHeight_nodeAt (i k : Nat)
    : peakMapHeight (nodeAt i k - 1) = (2 ^ k * (i + 1) - 1, k) := by
  have hpow : 0 < 2 ^ k * (i + 1) := by positivity
  have hle := nodeAt_le i k
  rw [nodeAt_eq] at hle ⊢
  rw [Nat.add_sub_cancel]
  apply peakMapHeight_mmrSize_add
  rw [Nat.sub_add_cancel hpow]
  omega

theorem bintreePostorderHeight_nodeAt (i k : Nat)
    : bintreePostorderHeight (nodeAt i k) = k := by
  have hpos := nodeAt_pos i k
  rw [bintreePostorderHeight, if_neg (by omega), peakMapHeight_nodeAt]

theorem nodeAt_inj (h : nodeAt i k = nodeAt j l)
    : i = j ∧ k = l := by
  have hmap := peakMapHeight_nodeAt i k
  rw [h, peakMapHeight_nodeAt, Prod.mk.injEq] at hmap
  obtain ⟨hmap, rfl⟩ := hmap
  have hi : 0 < 2 ^ l * (i + 1) := by positivity
  have hj : 0 < 2 ^ l * (j + 1) := by positivity
  have heq : 2 ^ l * (j + 1) = 2 ^ l * (i + 1) := by omega
  have := Nat.eq_of_mul_eq_mul_left (by positivity) heq
  omega

theorem nodeAt_le_mmrSize_iff
    : nodeAt i k ≤ mmrSize n ↔ 2 ^ k * (i + 1) ≤ n := by
  constructor
  . intro h
    by_contra hlt
    have := mmrSize_le_mmrSize (m := n) (n := 2 ^ k * (i + 1) - 1) (by omega)
    rw [nodeAt_eq] at h
    omega
  . intro h
    exact (nodeAt_le i k).trans (mmrSize_le_mmrSize h)

theorem nodeAt_left (j k : Nat)
    : nodeAt j (k + 1) = nodeAt (2 * j) k + 2 * 2 ^ k := by
  have hdouble : 2 ^ (k + 1) * j = 2 ^ k * (2 * j) := by ring
  have hpow : 0 < 2 ^ k := by positivity
  unfold nodeAt
  rw [hdouble]
  rw [Nat.pow_succ, Nat.pow_succ]
  omega

theorem nodeAt_right (j k : Nat)
    : nodeAt j (k + 1) = nodeAt (2 * j + 1) k + 1 := by
  have hdouble : 2 ^ k * (2 * j + 1) = 2 ^ (k + 1) * j + 2 ^ k := by ring
  have hpow : 0 < 2 ^ k := by positivity
  have hsize := mmrSize_two_pow_mul_add (k := k + 1) (m := j) (r := 2 ^ k) (by omega)
  have hperfect := mmrSize_two_pow_add (k := k) (m := 0) hpow
  rw [Nat.add_zero, mmrSize_zero, Nat.add_zero] at hperfect
  unfold nodeAt
  rw [hdouble, hsize, hperfect]
  omega

theorem nodeAt_two_mul (j k : Nat)
    : nodeAt (2 * j) k = mmrSize (2 ^ k * (2 * j + 1)) := by
  have hpow : 0 < 2 ^ k := by positivity
  have hdouble : 2 ^ k * (2 * j) = 2 ^ (k + 1) * j := by ring
  have hsplit : 2 ^ k * (2 * j + 1) = 2 ^ (k + 1) * j + 2 ^ k := by ring
  have hsize := mmrSize_two_pow_mul_add (k := k + 1) (m := j) (r := 2 ^ k) (by omega)
  have hperfect := mmrSize_two_pow_add (k := k) (m := 0) hpow
  rw [Nat.add_zero, mmrSize_zero, Nat.add_zero] at hperfect
  rw [hsplit, hsize, hperfect, nodeAt, hdouble]

theorem nodeAt_lt_parent (i k : Nat)
    : nodeAt i k < nodeAt (i / 2) (k + 1) := by
  have hpow : 0 < 2 ^ k := by positivity
  rcases Nat.mod_two_eq_zero_or_one i with hi | hi
  . obtain ⟨j, rfl⟩ : ∃ j, i = 2 * j := ⟨i / 2, by omega⟩
    have := nodeAt_left j k
    rw [Nat.mul_div_cancel_left _ (by omega)]
    omega
  . obtain ⟨j, rfl⟩ : ∃ j, i = 2 * j + 1 := ⟨i / 2, by omega⟩
    have := nodeAt_right j k
    rw [show (2 * j + 1) / 2 = j by omega]
    omega

theorem testBit_nodeAt (i k : Nat)
    : (2 ^ k * (i + 1) - 1).testBit k = decide (i % 2 = 1) := by
  have hpow : 0 < 2 ^ k := by positivity
  have hsplit : 2 ^ k * (i + 1) - 1 = 2 ^ k * i + (2 ^ k - 1) := by
    rw [Nat.mul_add]
    omega
  rw [hsplit, Nat.testBit_eq_decide_div_mod_eq, Nat.mul_add_div hpow, Nat.div_eq_of_lt (by omega),
    Nat.add_zero]

theorem family_nodeAt (i k : Nat)
    : family (nodeAt i k) = (nodeAt (i / 2) (k + 1), nodeAt (siblingOf i) k) := by
  rcases Nat.mod_two_eq_zero_or_one i with hi | hi
  . obtain ⟨j, rfl⟩ : ∃ j, i = 2 * j := ⟨i / 2, by omega⟩
    have hleft := nodeAt_left j k
    have hright := nodeAt_right j k
    simp only [family, peakMapHeight_nodeAt, testBit_nodeAt, siblingOf, hi]
    rw [Nat.mul_div_cancel_left _ (by omega)]
    simp
    omega
  . obtain ⟨j, rfl⟩ : ∃ j, i = 2 * j + 1 := ⟨i / 2, by omega⟩
    have hleft := nodeAt_left j k
    have hright := nodeAt_right j k
    simp only [family, peakMapHeight_nodeAt, testBit_nodeAt, siblingOf, hi]
    rw [show (2 * j + 1) / 2 = j by omega]
    simp
    omega

theorem isLeftSibling_nodeAt (i k : Nat)
    : isLeftSibling (nodeAt i k) = decide (i % 2 = 0) := by
  simp only [isLeftSibling, peakMapHeight_nodeAt, testBit_nodeAt]
  rcases Nat.mod_two_eq_zero_or_one i with hi | hi <;> simp [hi]

theorem two_pow_dvd_of_lt (h : mmrSize n + r < mmrSize (n + 1))
    : 2 ^ r ∣ n + 1 := by
  induction r generalizing n with
  | zero => simp
  | succ r ih =>
    have hn := mmrSize_eq n
    have hnext := mmrSize_eq (n + 1)
    rcases Nat.mod_two_eq_zero_or_one n with hmod | hmod
    . have : (n + 1) / 2 = n / 2 := by omega
      rw [this] at hnext
      omega
    . have hhalf : (n + 1) / 2 = n / 2 + 1 := by omega
      rw [hhalf] at hnext
      obtain ⟨m, hm⟩ := ih (n := n / 2) (by omega)
      refine ⟨m, ?_⟩
      rw [Nat.pow_succ, Nat.mul_right_comm, ← hm]
      omega

theorem exists_eq_mmrSize_add (hpos : 0 < pos)
    : ∃ n r, pos = mmrSize n + r + 1 ∧ mmrSize n + r < mmrSize (n + 1) := by
  obtain ⟨n, hlt, hle⟩ := exists_mmrSize_lt_le hpos
  exact ⟨n, pos - mmrSize n - 1, by omega, by omega⟩

theorem exists_eq_nodeAt (hpos : 0 < pos)
    : ∃ i k, pos = nodeAt i k := by
  obtain ⟨n, r, rfl, hr⟩ := exists_eq_mmrSize_add hpos
  obtain ⟨m, hm⟩ := two_pow_dvd_of_lt hr
  obtain ⟨i, rfl⟩ : ∃ i, m = i + 1 := by
    refine ⟨m - 1, ?_⟩
    rcases m with _ | m
    . rw [Nat.mul_zero] at hm
      omega
    . rfl
  exact ⟨i, r, by rw [nodeAt_eq, ← hm, Nat.add_sub_cancel]⟩

def peaksFrom (offset bits n : Nat) : List Nat :=
  match bits with
  | 0 => []
  | bits + 1 =>
    if 2 ^ bits ≤ n then
      (offset + (2 ^ (bits + 1) - 1)) :: peaksFrom (offset + (2 ^ (bits + 1) - 1)) bits (n - 2 ^ bits)
    else
      peaksFrom offset bits n

theorem snd_walkBits_peaks (bits n : Nat) (acc : Nat × List Nat)
    : (walkBits (fun (acc : Nat × List Nat) (peakSize : Nat) (hit : Bool) =>
          if hit then (acc.1 + peakSize, acc.2 ++ [acc.1 + peakSize]) else acc) bits n acc).2
        =
      acc.2 ++ peaksFrom acc.1 bits n := by
  induction bits generalizing n acc with
  | zero => simp [walkBits, peaksFrom]
  | succ bits ih =>
    unfold walkBits peaksFrom
    split
    . rw [ih]
      simp
    . rw [ih]
      simp

theorem peaks_mmrSize (n : Nat)
    : peaks (mmrSize n) = peaksFrom 0 (bitLength (mmrSize n)) n := by
  have hbits : n < 2 ^ bitLength (mmrSize n) := (le_mmrSize n).trans_lt (lt_two_pow_bitLength _)
  have hwalk := walkPeaks_mmrSize_add (r := 0) (fun (acc : Nat × List Nat) (peakSize : Nat)
    (hit : Bool) => if hit then (acc.1 + peakSize, acc.2 ++ [acc.1 + peakSize]) else acc) (0, []) hbits
    (.inr (mmrSize_lt_succ n))
  have hsnd := snd_walkBits_peaks (bitLength (mmrSize n)) n (0, [])
  unfold peaks
  rw [Nat.add_zero] at hwalk
  dsimp only
  rw [hwalk, if_neg (by simp)]
  simpa using hsnd

theorem lt_of_mem_peaksFrom (h : x ∈ peaksFrom offset bits n)
    : offset < x := by
  induction bits generalizing offset n with
  | zero => simp [peaksFrom] at h
  | succ bits ih =>
    have hpow : 0 < 2 ^ bits := by positivity
    unfold peaksFrom at h
    split at h
    . rcases List.mem_cons.mp h with rfl | hmem
      . rw [Nat.pow_succ]
        omega
      . have := ih hmem
        omega
    . exact ih h

theorem pairwise_peaksFrom (offset bits n : Nat)
    : (peaksFrom offset bits n).Pairwise (· < ·) := by
  induction bits generalizing offset n with
  | zero => exact .nil
  | succ bits ih =>
    unfold peaksFrom
    split
    . exact .cons (fun x hx => lt_of_mem_peaksFrom hx) (ih _ _)
    . exact ih _ _

theorem mem_peaksFrom (q : Nat) (hn : n < 2 ^ bits)
    : x ∈ peaksFrom (mmrSize (2 ^ bits * q)) bits n
        ↔
      ∃ k, n.testBit k = true ∧ x = nodeAt ((2 ^ bits * q + n) / 2 ^ k - 1) k := by
  induction bits generalizing n q with
  | zero =>
    have : n = 0 := by omega
    subst this
    simp [peaksFrom]
  | succ bits ih =>
    have hpow : 0 < 2 ^ bits := by positivity
    have hdouble : 2 ^ (bits + 1) * q = 2 ^ bits * (2 * q) := by ring
    unfold peaksFrom
    split
    . next hle =>
      obtain ⟨m, rfl⟩ : ∃ m, n = 2 ^ bits + m := ⟨n - 2 ^ bits, by omega⟩
      have hm : m < 2 ^ bits := by omega
      have hnext : 2 ^ bits * (2 * q) + (2 ^ bits + m) = 2 ^ bits * (2 * q + 1) + m := by ring
      have htop : mmrSize (2 ^ (bits + 1) * q) + (2 ^ (bits + 1) - 1) = nodeAt (2 * q) bits := by
        rw [hdouble]
        rfl
      have hoffset := nodeAt_two_mul q bits
      have hbit : (2 ^ bits + m).testBit bits = true := by
        rw [Nat.testBit_eq_decide_div_mod_eq, Nat.add_div_left _ hpow, Nat.div_eq_of_lt hm]
        rfl
      rw [Nat.add_sub_cancel_left, List.mem_cons, htop, hoffset, ih _ hm, hdouble, hnext, ← hoffset]
      constructor
      . rintro (rfl | ⟨k, hk, rfl⟩)
        . refine ⟨bits, hbit, ?_⟩
          rw [Nat.mul_add_div hpow, Nat.div_eq_of_lt hm, Nat.add_zero, Nat.add_sub_cancel]
        . have hlt : k < bits := (Nat.pow_lt_pow_iff_right (by omega)).mp
            ((Nat.ge_two_pow_of_testBit hk).trans_lt hm)
          exact ⟨k, by rw [Nat.testBit_two_pow_add_gt hlt]; exact hk, rfl⟩
      . rintro ⟨k, hk, rfl⟩
        rcases Nat.lt_trichotomy k bits with hlt | rfl | hgt
        . exact .inr ⟨k, by rw [Nat.testBit_two_pow_add_gt hlt] at hk; exact hk, rfl⟩
        . left
          rw [Nat.mul_add_div hpow, Nat.div_eq_of_lt hm, Nat.add_zero, Nat.add_sub_cancel]
        . have hge := Nat.ge_two_pow_of_testBit hk
          have := (Nat.pow_lt_pow_iff_right (a := 2) (by omega)).mp (hge.trans_lt hn)
          omega
    . next hlt =>
      rw [hdouble, ih (2 * q) (by omega)]

theorem mem_peaks_mmrSize
    : x ∈ peaks (mmrSize n) ↔ ∃ k, n.testBit k = true ∧ x = nodeAt (n / 2 ^ k - 1) k := by
  have hbits : n < 2 ^ bitLength (mmrSize n) := (le_mmrSize n).trans_lt (lt_two_pow_bitLength _)
  have hmem := mem_peaksFrom (x := x) 0 hbits
  rw [Nat.mul_zero, mmrSize_zero, Nat.zero_add] at hmem
  rw [peaks_mmrSize, hmem]

theorem pairwise_peaks_mmrSize (n : Nat)
    : (peaks (mmrSize n)).Pairwise (· < ·) := by
  rw [peaks_mmrSize]
  exact pairwise_peaksFrom _ _ _

theorem exists_of_mem_peaks (h : x ∈ peaks (mmrSize n))
    : ∃ i k, nodeAt i k ≤ mmrSize n ∧ x = nodeAt i k := by
  obtain ⟨k, hbit, rfl⟩ := mem_peaks_mmrSize.mp h
  have hdiv : 1 ≤ n / 2 ^ k := by
    rw [Nat.le_div_iff_mul_le (by positivity), Nat.one_mul]
    exact Nat.ge_two_pow_of_testBit hbit
  refine ⟨_, k, ?_, rfl⟩
  rw [nodeAt_le_mmrSize_iff, Nat.sub_add_cancel hdiv]
  exact Nat.mul_div_le _ _

theorem nodeAt_mem_peaks_iff (h : nodeAt i k ≤ mmrSize n)
    : nodeAt i k ∈ peaks (mmrSize n) ↔ mmrSize n < nodeAt (i / 2) (k + 1) := by
  have hpow : 0 < 2 ^ k := by positivity
  have hnode := nodeAt_le_mmrSize_iff.mp h
  have hparent : mmrSize n < nodeAt (i / 2) (k + 1) ↔ n < 2 ^ (k + 1) * (i / 2 + 1) := by
    rw [← Nat.not_le, nodeAt_le_mmrSize_iff, Nat.not_le]
  have hdouble : 2 ^ (k + 1) * (i / 2 + 1) = 2 ^ k * (2 * (i / 2) + 2) := by ring
  rw [hparent, mem_peaks_mmrSize, hdouble]
  constructor
  . rintro ⟨l, hbit, hpos⟩
    obtain ⟨hi, rfl⟩ := nodeAt_inj hpos
    rw [Nat.testBit_eq_decide_div_mod_eq, decide_eq_true_eq] at hbit
    have hlt : n < 2 ^ k * (n / 2 ^ k + 1) := by
      rw [Nat.mul_add, Nat.mul_one, Nat.mul_comm]
      exact Nat.lt_div_mul_add hpow
    have hle : n / 2 ^ k + 1 ≤ 2 * (i / 2) + 2 := by omega
    exact hlt.trans_le (Nat.mul_le_mul_left _ hle)
  . intro hlt
    have hge : i + 1 ≤ n / 2 ^ k := by
      rw [Nat.le_div_iff_mul_le hpow, Nat.mul_comm]
      exact hnode
    have hle : n / 2 ^ k < 2 * (i / 2) + 2 := by
      rw [Nat.div_lt_iff_lt_mul hpow, Nat.mul_comm]
      exact hlt
    refine ⟨k, ?_, ?_⟩
    . rw [Nat.testBit_eq_decide_div_mod_eq, decide_eq_true_eq]
      omega
    . congr 1
      omega

end Pmmr
end Epic
