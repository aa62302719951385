import Epic.Core.Pmmr.Tree
import Epic.Util.MachineInt
import Epic.Util.MountainRange
import Mathlib.Order.Interval.Finset.Nat

/-!
This module contains the sizes that a Merkle mountain range can have. The source takes a size apart in
three loops: into the positions of the peaks, into the sizes of the mountains, and into a bitmap of their
heights. Sizes, positions and numbers of leaves are converted into each other as long as the numbers
that the conversions pass through fit into 64 bits.
-/

namespace MountainRange

open Epic.Pmmr

theorem length_nodes (h : MountainRange α H) (elmts : List α)
    : (h.nodes elmts).length = mmrSize elmts.length := by
  have hlength {elmts : List α} {offset bits : Nat} (hlen : elmts.length < 2 ^ bits)
      : (h.mountains elmts offset bits).flatten.length = mmrSize elmts.length := by
    induction bits generalizing elmts offset with
    | zero =>
      have hzero : elmts.length = 0 := by omega
      rw [hzero]
      rfl
    | succ bits ih =>
      rw [mountains]
      split
      . next hlong =>
        have hsize := mmrSize_two_pow_add (k := bits) (m := elmts.length - 2 ^ bits) (by omega)
        rw [Nat.add_sub_cancel' hlong] at hsize
        rw [List.flatten_cons, List.length_append, ih (by rw [List.length_drop]; omega),
          h.length_perfect hlong, List.length_drop, hsize]
      . next hshort => exact ih (by omega)
  exact hlength Nat.lt_two_pow_self

end MountainRange

namespace Epic
namespace Pmmr

section

variable {bits n k : Nat}

def heightsFrom (bits n : Nat) : List Nat :=
  match bits with
  | 0 => []
  | bits + 1 =>
    if 2 ^ bits ≤ n then
      bits :: heightsFrom bits (n - 2 ^ bits)
    else
      heightsFrom bits n

def treeSize (height : Nat) : Nat := 2 ^ (height + 1) - 1

def rightEnds (offset : Nat) (sizes : List Nat) : List Nat :=
  match sizes with
  | [] => []
  | size :: sizes => (offset + size) :: rightEnds (offset + size) sizes

theorem lt_of_mem_heightsFrom (h : k ∈ heightsFrom bits n)
    : k < bits := by
  induction bits generalizing n with
  | zero => simp [heightsFrom] at h
  | succ bits ih =>
    unfold heightsFrom at h
    split at h
    . rcases List.mem_cons.mp h with rfl | hmem
      . omega
      . have := ih hmem
        omega
    . have := ih h
      omega

theorem pairwise_heightsFrom (bits n : Nat)
    : (heightsFrom bits n).Pairwise (· > ·) := by
  induction bits generalizing n with
  | zero => exact .nil
  | succ bits ih =>
    unfold heightsFrom
    split
    . exact .cons (fun k hk => lt_of_mem_heightsFrom hk) (ih _)
    . exact ih _

theorem mem_heightsFrom (hn : n < 2 ^ bits)
    : k ∈ heightsFrom bits n ↔ n.testBit k = true := by
  induction bits generalizing n with
  | zero =>
    obtain rfl : n = 0 := by omega
    simp [heightsFrom]
  | succ bits ih =>
    unfold heightsFrom
    split
    . obtain ⟨m, rfl⟩ : ∃ m, n = 2 ^ bits + m := ⟨n - 2 ^ bits, by omega⟩
      have hm : m < 2 ^ bits := by omega
      rw [Nat.add_sub_cancel_left, List.mem_cons, ih hm]
      rcases Nat.lt_trichotomy k bits with hlt | rfl | hgt
      . rw [Nat.testBit_two_pow_add_gt hlt]
        simp [hlt.ne]
      . simp [Nat.testBit_two_pow_add_eq, Nat.testBit_lt_two_pow hm]
      . have hpow : 2 ^ (bits + 1) ≤ 2 ^ k := Nat.pow_le_pow_right (by omega) hgt
        rw [Nat.testBit_lt_two_pow (hn.trans_le hpow), Nat.testBit_lt_two_pow (by omega)]
        simp [hgt.ne']
    . exact ih (by omega)

theorem sum_heightsFrom (hn : n < 2 ^ bits)
    : ((heightsFrom bits n).map treeSize).sum = mmrSize n := by
  induction bits generalizing n with
  | zero =>
    obtain rfl : n = 0 := by omega
    rfl
  | succ bits ih =>
    unfold heightsFrom
    split
    . obtain ⟨m, rfl⟩ : ∃ m, n = 2 ^ bits + m := ⟨n - 2 ^ bits, by omega⟩
      have hm : m < 2 ^ bits := by omega
      rw [Nat.add_sub_cancel_left, List.map_cons, List.sum_cons, ih hm, mmrSize_two_pow_add hm, treeSize]
    . exact ih (by omega)

theorem peaksFrom_eq (offset bits n : Nat)
    : peaksFrom offset bits n = rightEnds offset ((heightsFrom bits n).map treeSize) := by
  induction bits generalizing offset n with
  | zero => rfl
  | succ bits ih =>
    unfold peaksFrom heightsFrom
    split
    . rw [ih]
      rfl
    . exact ih _ _

theorem walkBits_sizes (bits n : Nat) (acc : List Nat)
    : walkBits (fun sizes peakSize hit => if hit then sizes ++ [peakSize] else sizes) bits n acc
        =
      acc ++ (heightsFrom bits n).map treeSize := by
  induction bits generalizing n acc with
  | zero => simp [walkBits, heightsFrom]
  | succ bits ih =>
    unfold walkBits heightsFrom
    split
    . rw [ih]
      simp [treeSize]
    . rw [ih]
      simp

theorem heights_peaksFrom (q : Nat) (hn : n < 2 ^ bits)
    : (peaksFrom (mmrSize (2 ^ bits * q)) bits n).map bintreePostorderHeight = heightsFrom bits n := by
  induction bits generalizing n q with
  | zero => rfl
  | succ bits ih =>
    have hdouble : 2 ^ (bits + 1) * q = 2 ^ bits * (2 * q) := by ring
    unfold peaksFrom heightsFrom
    split
    . have htop : mmrSize (2 ^ (bits + 1) * q) + (2 ^ (bits + 1) - 1) = nodeAt (2 * q) bits := by
        rw [hdouble]
        rfl
      rw [List.map_cons, htop, bintreePostorderHeight_nodeAt, nodeAt_two_mul, ih _ (by omega)]
    . rw [hdouble]
      exact ih (2 * q) (by omega)

end

/-!
Every size is that of a mountain range with some of the parents over its last leaf missing.
-/

theorem exists_between (size : Nat)
    : ∃ n r, size = mmrSize n + r ∧ mmrSize n + r < mmrSize (n + 1) := by
  obtain ⟨n, r, hsize, hr⟩ := exists_eq_mmrSize_add (Nat.succ_pos size)
  exact ⟨n, r, Nat.succ.inj hsize, hr⟩

theorem eq_zero_of_mmrSize (h : mmrSize n + r < mmrSize (n + 1)) (hm : mmrSize m = mmrSize n + r)
    : r = 0 ∧ m = n := by
  have hle : n ≤ m := by
    by_contra hlt
    have := mmrSize_lt_mmrSize (Nat.lt_of_not_le hlt)
    omega
  have hge : m < n + 1 := by
    by_contra hle
    have := mmrSize_le_mmrSize (Nat.le_of_not_lt hle)
    omega
  obtain rfl : m = n := by omega
  exact ⟨by omega, rfl⟩

-- a mountain range without hashes
def shape : MountainRange Unit Unit := ⟨fun _ _ => (), fun _ _ _ => ()⟩

def IsSize (size : Nat) : Prop := ∃ leaves : List Unit, (shape.nodes leaves).length = size

theorem isSize_iff
    : IsSize size ↔ ∃ n, mmrSize n = size := by
  unfold IsSize
  simp only [MountainRange.length_nodes]
  constructor
  . rintro ⟨leaves, hsize⟩
    exact ⟨leaves.length, hsize⟩
  . rintro ⟨n, hsize⟩
    exact ⟨List.replicate n (), by rwa [List.length_replicate]⟩

theorem isSize_mmrSize_add (h : mmrSize n + r < mmrSize (n + 1))
    : IsSize (mmrSize n + r) ↔ r = 0 := by
  rw [isSize_iff]
  constructor
  . rintro ⟨m, hm⟩
    exact (eq_zero_of_mmrSize h hm).1
  . rintro rfl
    exact ⟨n, rfl⟩

section

variable {n r : Nat}

theorem lt_two_pow_bitLength_mmrSize_add (n r : Nat)
    : n < 2 ^ bitLength (mmrSize n + r) := by
  have hle := le_mmrSize n
  have hlt := lt_two_pow_bitLength (mmrSize n + r)
  omega

def heightsAt (n r : Nat) : List Nat := heightsFrom (bitLength (mmrSize n + r)) n

theorem peakSizesHeight_mmrSize_add (h : mmrSize n + r < mmrSize (n + 1))
    : peakSizesHeight (mmrSize n + r) = ((heightsAt n r).map treeSize, r) := by
  unfold peakSizesHeight
  rw [walkPeaks_mmrSize_add _ _ (lt_two_pow_bitLength_mmrSize_add n r) (.inr h), walkBits_sizes]
  rfl

theorem peaks_mmrSize_add (h : mmrSize n + r < mmrSize (n + 1))
    : peaks (mmrSize n + r) = if 0 < r then [] else rightEnds 0 ((heightsAt n r).map treeSize) := by
  unfold peaks
  dsimp only
  rw [walkPeaks_mmrSize_add _ _ (lt_two_pow_bitLength_mmrSize_add n r) (.inr h)]
  dsimp only
  rw [snd_walkBits_peaks, peaksFrom_eq]
  rfl

theorem mem_heightsAt
    : k ∈ heightsAt n r ↔ n.testBit k = true := mem_heightsFrom (lt_two_pow_bitLength_mmrSize_add n r)

end

theorem treeSize_inj
    : treeSize k = treeSize l ↔ k = l := by
  unfold treeSize
  refine ⟨fun h => ?_, fun h => by rw [h]⟩
  have hk := Nat.two_pow_pos (k + 1)
  have hl := Nat.two_pow_pos (l + 1)
  have hpow : 2 ^ (k + 1) = 2 ^ (l + 1) := by omega
  have := Nat.pow_right_injective (le_refl 2) hpow
  omega

structure Mountains (size : Nat) (heights : List Nat) : Prop where
  decreasing : heights.Pairwise (· > ·)
  sum : (heights.map treeSize).sum = size
  peaks : peaks size = rightEnds 0 (heights.map treeSize)
  height : (Pmmr.peaks size).map bintreePostorderHeight = heights
  sizes : peakSizesHeight size = (heights.map treeSize, 0)

theorem mountains_mmrSize (n : Nat)
    : Mountains (mmrSize n) (heightsAt n 0) := by
  have hsucc : mmrSize n + 0 < mmrSize (n + 1) := mmrSize_lt_succ n
  have hbits : n < 2 ^ bitLength (mmrSize n + 0) := lt_two_pow_bitLength_mmrSize_add n 0
  have hpeaks := peaks_mmrSize_add hsucc
  rw [if_neg (Nat.lt_irrefl 0), Nat.add_zero] at hpeaks
  refine ⟨pairwise_heightsFrom _ _, sum_heightsFrom hbits, hpeaks, ?_, ?_⟩
  . have hheights := heights_peaksFrom 0 hbits
    rw [Nat.mul_zero, mmrSize_zero] at hheights
    rw [peaks_mmrSize]
    exact hheights
  . have hsizes := peakSizesHeight_mmrSize_add hsucc
    rwa [Nat.add_zero] at hsizes

theorem peaks_ne_nil_iff (h : mmrSize n + r < mmrSize (n + 1))
    : peaks (mmrSize n + r) ≠ [] ↔ mmrSize n + r ≠ 0 ∧ r = 0 := by
  rw [peaks_mmrSize_add h]
  by_cases hr : r = 0
  . subst hr
    rw [if_neg (Nat.lt_irrefl 0), Nat.add_zero]
    have hsum := (mountains_mmrSize n).sum
    cases hheights : heightsAt n 0 with
    | nil =>
      rw [hheights] at hsum
      simp [rightEnds, ← hsum]
    | cons k heights =>
      have hpos : 0 < treeSize k := by
        have := Nat.two_pow_pos k
        unfold treeSize
        omega
      rw [hheights, List.map_cons, List.sum_cons] at hsum
      simp only [List.map_cons, rightEnds, ne_eq, reduceCtorEq, not_false_eq_true, true_iff, and_true]
      omega
  . rw [if_pos (Nat.pos_of_ne_zero hr)]
    simp [hr]

theorem peaks_decompose_size (size : Nat)
    : (peaks size ≠ [] ↔ size ≠ 0 ∧ IsSize size)
        ∧
      (peaks size ≠ [] → ∃ heights, Mountains size heights)
        ∧
      (∀ k, (peakMapHeight size).1.testBit k = true ↔ treeSize k ∈ (peakSizesHeight size).1)
        ∧
      ((peakMapHeight size).2 = 0 ↔ IsSize size) := by
  obtain ⟨n, r, rfl, hr⟩ := exists_between size
  rw [isSize_mmrSize_add hr, peakMapHeight_mmrSize_add hr, peakSizesHeight_mmrSize_add hr]
  refine ⟨peaks_ne_nil_iff hr, fun hne => ?_, fun k => ?_, Iff.rfl⟩
  . obtain ⟨-, rfl⟩ := (peaks_ne_nil_iff hr).mp hne
    exact ⟨_, mountains_mmrSize n⟩
  . simp only [List.mem_map, treeSize_inj, exists_eq_right, mem_heightsAt]

theorem leafPos_le_iff
    : leafPos j ≤ size ↔ j < nLeaves size := by
  obtain ⟨n, r, rfl, hr⟩ := exists_between size
  rw [nLeaves_mmrSize_add hr]
  have hle : leafPos j ≤ mmrSize n + r ↔ leafPos j ≤ mmrSize n ∨ j = n ∧ 0 < r := by
    constructor
    . intro hpos
      rcases Nat.lt_trichotomy j n with hlt | rfl | hgt
      . exact .inl (leafPos_le_mmrSize_iff.mpr hlt)
      . unfold leafPos at hpos
        exact .inr ⟨rfl, by omega⟩
      . have hsize : mmrSize (n + 1) ≤ mmrSize j := mmrSize_le_mmrSize hgt
        unfold leafPos at hpos
        omega
    . rintro (hpos | ⟨rfl, hpos⟩)
      . omega
      . unfold leafPos
        omega
  rw [hle, leafPos_le_mmrSize_iff]
  split <;> omega

def leavesUpTo (size : Nat) : Finset Nat := (Finset.Icc 1 size).filter (isLeaf · = true)

theorem card_leavesUpTo (size : Nat)
    : (leavesUpTo size).card = nLeaves size := by
  have himage : leavesUpTo size = (Finset.range (nLeaves size)).image leafPos := by
    ext pos
    simp only [leavesUpTo, Finset.mem_filter, Finset.mem_Icc, Finset.mem_image, Finset.mem_range]
    constructor
    . rintro ⟨⟨hpos, hle⟩, hleaf⟩
      obtain ⟨n, rfl⟩ := exists_eq_leafPos hpos hleaf
      exact ⟨n, leafPos_le_iff.mp hle, rfl⟩
    . rintro ⟨n, hn, rfl⟩
      exact ⟨⟨Nat.succ_pos _, leafPos_le_iff.mpr hn⟩, isLeaf_leafPos n⟩
  rw [himage, Finset.card_image_of_injective _ leafPos_injective, Finset.card_range]

/-!
The conversions on machine words. The number of leaves is a sum of halves that are rounded up, and the
position of a leaf a difference of numbers that are larger than it.
-/

section

open MachineInt

variable {ε : Type}

def nLeaves64 (checks : Bool) (size : UInt64) : Outcome ε UInt64 := do
  let (sizes, height) := peakSizesHeight size.toNat
  let halves ← sizes.mapM fun n => do
    let next ← add checks (UInt64.ofNat n) 1
    return next / 2
  let nleaves ← sum checks halves
  if height = 0 then return nleaves else add checks nleaves 1

def insertionToPmmrIndex64 (checks : Bool) (sz : UInt64) : Outcome ε UInt64 :=
  if sz = 0 then
    .ok 0
  else do
    let sz ← sub checks sz 1
    let double ← mul checks 2 sz
    let diff ← sub checks double (UInt64.ofNat (countOnes sz.toNat))
    add checks diff 1

theorem leafPos_lt (hn : n < 2 ^ 63)
    : leafPos n < 2 ^ 64 := by
  unfold leafPos mmrSize
  omega

theorem insertionToPmmrIndex64_eq_ok (hsz : sz.toNat = n + 1)
    (hn : n < 2 ^ 63)
    : (insertionToPmmrIndex64 checks sz : Outcome ε UInt64) = .ok (UInt64.ofNat (leafPos n)) := by
  have hone : (1 : UInt64).toNat = 1 := rfl
  have htwo : (2 : UInt64).toNat = 2 := rfl
  have hle := countOnes_le n
  have hne : sz ≠ 0 := by
    rintro rfl
    exact absurd hsz (by simp)
  have hprev : (sz - 1).toNat = n := by
    rw [UInt64.toNat_sub_of_le _ _ (UInt64.le_iff_toNat_le.mpr (by omega)), hsz, hone, Nat.add_sub_cancel]
  have hdouble : (2 * (sz - 1)).toNat = 2 * n := by
    rw [UInt64.toNat_mul, htwo, hprev, Nat.mod_eq_of_lt (by omega)]
  have hones : (UInt64.ofNat (countOnes n)).toNat = countOnes n :=
    UInt64.toNat_ofNat_of_lt' (by unfold UInt64.size; omega)
  have hdiff : (2 * (sz - 1) - UInt64.ofNat (countOnes n)).toNat = mmrSize n := by
    rw [UInt64.toNat_sub_of_le _ _ (UInt64.le_iff_toNat_le.mpr (by omega)), hdouble, hones, mmrSize]
  have hlt := leafPos_lt hn
  unfold leafPos at hlt
  unfold insertionToPmmrIndex64
  rw [if_neg hne, sub_eq_ok (by omega), Outcome.ok_bind, mul_eq_ok (by rw [htwo, hprev]; omega),
    Outcome.ok_bind, hprev, sub_eq_ok (by omega), Outcome.ok_bind, add_eq_ok (by omega)]
  congr 1
  apply UInt64.toNat_inj.mp
  rw [UInt64.toNat_add, hdiff, hone, Nat.mod_eq_of_lt (by omega),
    UInt64.toNat_ofNat_of_lt' (leafPos_lt hn), leafPos]

theorem sum_halves (size : Nat)
    : ((peakSizesHeight size).1.map fun n => (n + 1) / 2).sum ≤ size := by
  have hle : nLeaves size ≤ size := by
    by_contra hgt
    have hlast : leafPos size ≤ size := leafPos_le_iff.mpr (by omega)
    have := le_mmrSize size
    unfold leafPos at hlast
    omega
  unfold nLeaves at hle
  dsimp only at hle
  split at hle <;> omega

theorem le_of_mem_peakSizes (h : n ∈ (peakSizesHeight size).1)
    : n ≤ size := by
  have hhalf := List.single_le_sum (fun _ _ => Nat.zero_le _) _ (List.mem_map_of_mem (f := id) h)
  obtain ⟨m, r, rfl, hr⟩ := exists_between size
  rw [peakSizesHeight_mmrSize_add hr, List.map_id, id_eq,
    heightsAt, sum_heightsFrom (lt_two_pow_bitLength_mmrSize_add m r)] at hhalf
  omega

theorem nLeaves64_eq_ok (h : size.toNat < 2 ^ 64 - 1)
    : (nLeaves64 checks size : Outcome ε UInt64) = .ok (UInt64.ofNat (nLeaves size.toNat)) := by
  have hone : (1 : UInt64).toNat = 1 := rfl
  have hsum := sum_halves size.toNat
  have hhalves : ((peakSizesHeight size.toNat).1.mapM fun n => do
        let next ← add checks (UInt64.ofNat n) 1
        return next / 2 : Outcome ε (List UInt64))
      = .ok ((peakSizesHeight size.toNat).1.map fun n => UInt64.ofNat ((n + 1) / 2)) := by
    apply Outcome.mapM_ok
    intro n hn
    have hle := le_of_mem_peakSizes hn
    have hval : (UInt64.ofNat n).toNat = n := UInt64.toNat_ofNat_of_lt' (by unfold UInt64.size; omega)
    rw [add_eq_ok (by omega), Outcome.ok_bind, Outcome.pure_eq_ok]
    congr 1
    apply UInt64.toNat_inj.mp
    rw [UInt64.toNat_div, UInt64.toNat_add, hval, hone, Nat.mod_eq_of_lt (by omega),
      UInt64.toNat_ofNat_of_lt' (by unfold UInt64.size; omega)]
    rfl
  have hvals : ((peakSizesHeight size.toNat).1.map fun n => UInt64.ofNat ((n + 1) / 2)).map UInt64.toNat
      = (peakSizesHeight size.toNat).1.map fun n => (n + 1) / 2 := by
    rw [List.map_map]
    apply List.map_congr_left
    intro n hn
    have hle := le_of_mem_peakSizes hn
    exact UInt64.toNat_ofNat_of_lt' (by unfold UInt64.size; omega)
  unfold nLeaves64 nLeaves
  dsimp only
  rw [hhalves, Outcome.ok_bind, sum_eq_ok checks (by rw [hvals]; omega), Outcome.ok_bind, hvals]
  have hval : (UInt64.ofNat ((peakSizesHeight size.toNat).1.map fun n => (n + 1) / 2).sum).toNat
      = ((peakSizesHeight size.toNat).1.map fun n => (n + 1) / 2).sum :=
    UInt64.toNat_ofNat_of_lt' (by unfold UInt64.size; omega)
  split
  . rfl
  . rw [add_eq_ok (by omega)]
    congr 1
    apply UInt64.toNat_inj.mp
    rw [UInt64.toNat_add, hval, hone, Nat.mod_eq_of_lt (by omega),
      UInt64.toNat_ofNat_of_lt' (by unfold UInt64.size; omega)]

theorem lt_of_leafPos_lt (h : leafPos n < 2 ^ 64)
    : n < 2 ^ 63 := by
  by_contra hge
  have hsize := mmrSize_le_mmrSize (Nat.le_of_not_lt hge)
  have hperfect : mmrSize (2 ^ 63) = 2 ^ 64 - 1 := mmrSize_two_pow_add (k := 63) (m := 0) (by omega)
  unfold leafPos at h
  omega

theorem leaf_index_bijection (ε : Type) (checks : Bool)
    : (∀ sz : UInt64, 1 ≤ sz.toNat → sz.toNat ≤ 2 ^ 63
          → ∃ pos, (insertionToPmmrIndex64 checks sz : Outcome ε UInt64) = .ok pos
              ∧ 0 < pos.toNat ∧ bintreePostorderHeight pos.toNat = 0)
        ∧
      (∀ sz sz' pos pos' : UInt64, 1 ≤ sz.toNat → sz < sz' → sz'.toNat ≤ 2 ^ 63
          → (insertionToPmmrIndex64 checks sz : Outcome ε UInt64) = .ok pos
          → (insertionToPmmrIndex64 checks sz' : Outcome ε UInt64) = .ok pos' → pos < pos')
        ∧
      (∀ pos : UInt64, 0 < pos.toNat → bintreePostorderHeight pos.toNat = 0
          → ∃ sz : UInt64, 1 ≤ sz.toNat ∧ sz.toNat ≤ 2 ^ 63
              ∧ (insertionToPmmrIndex64 checks sz : Outcome ε UInt64) = .ok pos)
        ∧
      (∀ size : UInt64, size.toNat < 2 ^ 64 - 1
          → ∃ leaves, (nLeaves64 checks size : Outcome ε UInt64) = .ok leaves
              ∧ leaves.toNat = ((Finset.Icc 1 size.toNat).filter (bintreePostorderHeight · = 0)).card)
        ∧
      (∀ (α H : Type) (range : MountainRange α H) (elmts : List α), elmts.length < 2 ^ 63
          → ∃ pos, (insertionToPmmrIndex64 checks (UInt64.ofNat (elmts.length + 1)) : Outcome ε UInt64) = .ok pos
              ∧ (range.nodes elmts).length = pos.toNat - 1) := by
  have hleafPos {n : Nat} (hn : n < 2 ^ 63) : (UInt64.ofNat (leafPos n)).toNat = leafPos n :=
    UInt64.toNat_ofNat_of_lt' (leafPos_lt hn)
  have hindex {sz : UInt64} (hpos : 1 ≤ sz.toNat) (hle : sz.toNat ≤ 2 ^ 63)
      : (insertionToPmmrIndex64 checks sz : Outcome ε UInt64) = .ok (UInt64.ofNat (leafPos (sz.toNat - 1))) :=
    insertionToPmmrIndex64_eq_ok (by omega) (by omega)
  have hleaf (pos : Nat) : bintreePostorderHeight pos = 0 ↔ isLeaf pos = true := by simp [isLeaf]
  refine ⟨fun sz hpos hle => ⟨_, hindex hpos hle, ?_, ?_⟩, ?_, ?_, ?_, ?_⟩
  . rw [hleafPos (by omega)]
    exact Nat.succ_pos _
  . rw [hleafPos (by omega), hleaf]
    exact isLeaf_leafPos _
  . intro sz sz' pos pos' hpos hlt hle hok hok'
    rw [UInt64.lt_iff_toNat_lt] at hlt
    rw [hindex hpos (by omega), Outcome.ok.injEq] at hok
    rw [hindex (by omega) hle, Outcome.ok.injEq] at hok'
    rw [← hok, ← hok', UInt64.lt_iff_toNat_lt, hleafPos (by omega), hleafPos (by omega)]
    exact leafPos_lt_leafPos (by omega)
  . intro pos hpos hheight
    obtain ⟨n, hn⟩ := exists_eq_leafPos hpos ((hleaf _).mp hheight)
    have hlt : n < 2 ^ 63 := lt_of_leafPos_lt (by rw [← hn]; exact pos.toNat_lt)
    have hval : (UInt64.ofNat (n + 1)).toNat = n + 1 :=
      UInt64.toNat_ofNat_of_lt' (by unfold UInt64.size; omega)
    refine ⟨UInt64.ofNat (n + 1), by omega, by omega, ?_⟩
    rw [insertionToPmmrIndex64_eq_ok hval hlt, ← hn, UInt64.ofNat_toNat]
  . intro size hsize
    refine ⟨_, nLeaves64_eq_ok hsize, ?_⟩
    have hcard := card_leavesUpTo size.toNat
    have hle : nLeaves size.toNat ≤ size.toNat := by
      rw [← hcard]
      exact (Finset.card_filter_le _ _).trans (by simp)
    simp only [hleaf]
    rw [UInt64.toNat_ofNat_of_lt' (by unfold UInt64.size; omega), ← hcard]
    rfl
  . intro α H range elmts hlength
    have hval : (UInt64.ofNat (elmts.length + 1)).toNat = elmts.length + 1 :=
      UInt64.toNat_ofNat_of_lt' (by unfold UInt64.size; omega)
    refine ⟨_, insertionToPmmrIndex64_eq_ok hval hlength, ?_⟩
    rw [hleafPos hlength, range.length_nodes]
    rfl

-- the leaves of the range whose size is the last number of 64 bits cannot be counted
theorem nLeaves64_max
    : (nLeaves64 true 0xffffffffffffffff : Outcome Unit UInt64) = .panic
        ∧ (nLeaves64 false 0xffffffffffffffff : Outcome Unit UInt64) = .ok 0
        ∧ ((Finset.Icc 1 (2 ^ 64 - 1)).filter (isLeaf · = true)).card = 2 ^ 63
        ∧ (insertionToPmmrIndex64 true 0x8000000000000001 : Outcome Unit UInt64) = .panic := by
  refine ⟨by decide, by decide, ?_, by decide⟩
  have hcard := card_leavesUpTo (2 ^ 64 - 1)
  have hleaves : nLeaves (2 ^ 64 - 1) = 2 ^ 63 := by decide
  rw [hleaves] at hcard
  exact hcard

end

end Pmmr
end Epic
