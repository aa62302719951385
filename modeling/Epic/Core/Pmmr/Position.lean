import Mathlib.Tactic.Positivity
import Mathlib.Tactic.Ring

/-!
This module contains the arithmetic of node positions in a Merkle mountain range. Positions are the
postorder indices of the nodes, counted from 1.
-/

namespace Epic
namespace Pmmr

def countOnes.go (fuel n : Nat) : Nat :=
  match fuel with
  | 0 => 0
  | fuel + 1 => if n = 0 then 0 else n % 2 + go fuel (n / 2)

def countOnes (n : Nat) : Nat := countOnes.go n n

theorem countOnes.go_eq_go (hk : n ≤ k) (hl : n ≤ l)
    : go k n = go l n := by
  induction k generalizing l n with
  | zero =>
    have : n = 0 := by omega
    subst this
    cases l <;> simp [go]
  | succ k ih =>
    cases l with
    | zero =>
      have : n = 0 := by omega
      subst this
      simp [go]
    | succ l =>
      unfold go
      split
      . rfl
      . rw [ih (l := l) (by omega) (by omega)]

theorem countOnes_eq (n : Nat)
    : countOnes n = n % 2 + countOnes (n / 2) := by
  unfold countOnes
  cases n with
  | zero => simp [countOnes.go]
  | succ n =>
    rw [countOnes.go]
    rw [if_neg (by omega)]
    rw [countOnes.go_eq_go (l := (n + 1) / 2) (by omega) (by omega)]

theorem countOnes_le (n : Nat)
    : countOnes n ≤ n := by
  induction n using Nat.strong_induction_on with
  | h n ih =>
    rw [countOnes_eq]
    by_cases hn : n = 0
    . subst hn
      simp [countOnes, countOnes.go]
    . have := ih (n / 2) (by omega)
      omega

-- the number of nodes above and including n leaves
def mmrSize (n : Nat) : Nat := 2 * n - countOnes n

theorem mmrSize_eq (n : Nat)
    : mmrSize n = n + mmrSize (n / 2) := by
  unfold mmrSize
  have := countOnes_eq n
  have := countOnes_le (n / 2)
  omega

theorem mmrSize_zero
    : mmrSize 0 = 0 := rfl

theorem le_mmrSize (n : Nat)
    : n ≤ mmrSize n := by
  rw [mmrSize_eq]
  omega

theorem mmrSize_two_pow_add (hm : m < 2 ^ k)
    : mmrSize (2 ^ k + m) = (2 ^ (k + 1) - 1) + mmrSize m := by
  induction k generalizing m with
  | zero =>
    have : m = 0 := by omega
    subst this
    decide
  | succ k ih =>
    have hdiv : (2 ^ (k + 1) + m) / 2 = 2 ^ k + m / 2 := by omega
    have hlt : m / 2 < 2 ^ k := by omega
    have hpow : 0 < 2 ^ k := by positivity
    rw [mmrSize_eq (2 ^ (k + 1) + m)]
    rw [hdiv, ih hlt]
    rw [mmrSize_eq m]
    omega

theorem mmrSize_lt_mmrSize (h : m < n)
    : mmrSize m < mmrSize n := by
  induction n using Nat.strong_induction_on generalizing m with
  | h n ih =>
    rw [mmrSize_eq m, mmrSize_eq n]
    rcases Nat.lt_or_ge (m / 2) (n / 2) with hlt | hge
    . have := ih (n / 2) (by omega) hlt
      omega
    . have : m / 2 = n / 2 := by omega
      rw [this]
      omega

theorem mmrSize_le_mmrSize (h : m ≤ n)
    : mmrSize m ≤ mmrSize n := by
  rcases Nat.lt_or_ge m n with hlt | hge
  . exact (mmrSize_lt_mmrSize hlt).le
  . rw [Nat.le_antisymm h hge]

theorem mmrSize_le_of_lt_two_pow (h : n < 2 ^ k)
    : mmrSize (n + 1) ≤ 2 ^ (k + 1) - 1 := by
  have hpow : mmrSize (2 ^ k) = 2 ^ (k + 1) - 1 := by
    have := mmrSize_two_pow_add (k := k) (m := 0) (by positivity)
    simpa [mmrSize_zero] using this
  rw [← hpow]
  rcases Nat.lt_or_ge (n + 1) (2 ^ k) with hlt | hge
  . exact (mmrSize_lt_mmrSize hlt).le
  . have : n + 1 = 2 ^ k := by omega
    rw [this]

-- the loop over the peak sizes 2 ^ bits - 1, ..., 3, 1 that peaks, peak_sizes_height and
-- peak_map_height share
def walkPeaks {β : Type} (visit : β → Nat → Bool → β) (bits left : Nat) (acc : β) : β × Nat :=
  match bits with
  | 0 => (acc, left)
  | bits + 1 =>
    let peakSize := 2 ^ (bits + 1) - 1
    if peakSize ≤ left then
      walkPeaks visit bits (left - peakSize) (visit acc peakSize true)
    else
      walkPeaks visit bits left (visit acc peakSize false)

def walkBits {β : Type} (visit : β → Nat → Bool → β) (bits n : Nat) (acc : β) : β :=
  match bits with
  | 0 => acc
  | bits + 1 =>
    if 2 ^ bits ≤ n then
      walkBits visit bits (n - 2 ^ bits) (visit acc (2 ^ (bits + 1) - 1) true)
    else
      walkBits visit bits n (visit acc (2 ^ (bits + 1) - 1) false)

theorem walkPeaks_mmrSize_add (visit : β → Nat → Bool → β) (acc : β)
    (hn : n < 2 ^ k) (hr : n + 1 = 2 ^ k ∨ mmrSize n + r < mmrSize (n + 1))
    : walkPeaks visit k (mmrSize n + r) acc = (walkBits visit k n acc, r) := by
  induction k generalizing n acc with
  | zero =>
    have : n = 0 := by omega
    subst this
    simp [walkPeaks, walkBits, mmrSize_zero]
  | succ k ih =>
    unfold walkPeaks walkBits
    by_cases hbit : 2 ^ k ≤ n
    . obtain ⟨m, rfl⟩ : ∃ m, n = 2 ^ k + m := ⟨n - 2 ^ k, by omega⟩
      have hm : m < 2 ^ k := by omega
      have hsize := mmrSize_two_pow_add hm
      rw [if_pos hbit]
      dsimp only
      rw [if_pos (by omega)]
      have hleft : mmrSize (2 ^ k + m) + r - (2 ^ (k + 1) - 1) = mmrSize m + r := by omega
      rw [hleft]
      have hsub : 2 ^ k + m - 2 ^ k = m := by omega
      rw [hsub]
      apply ih _ hm
      by_cases hlast : m + 1 = 2 ^ k
      . exact .inl hlast
      . right
        rcases hr with hr | hr
        . omega
        . have := mmrSize_two_pow_add (k := k) (m := m + 1) (by omega)
          have hassoc : 2 ^ k + m + 1 = 2 ^ k + (m + 1) := by omega
          rw [hassoc] at hr
          omega
    . have hlt : n < 2 ^ k := by omega
      have hle := mmrSize_le_of_lt_two_pow hlt
      have hr' : mmrSize n + r < mmrSize (n + 1) := by omega
      rw [if_neg hbit]
      dsimp only
      rw [if_neg (by omega)]
      exact ih _ hlt (.inr hr')

-- the number of bits of an index, 64 - leading_zeros
def bitLength (n : Nat) : Nat := if n = 0 then 0 else n.log2 + 1

theorem lt_two_pow_bitLength (n : Nat)
    : n < 2 ^ bitLength n := by
  unfold bitLength
  split
  . omega
  . exact Nat.lt_log2_self

def peaks (num : Nat) : List Nat :=
  let visit := fun (acc : Nat × List Nat) (peakSize : Nat) (hit : Bool) =>
    if hit then (acc.1 + peakSize, acc.2 ++ [acc.1 + peakSize]) else acc
  let ((_, peaks), numLeft) := walkPeaks visit (bitLength num) num (0, [])
  if numLeft > 0 then [] else peaks

def peakSizesHeight (size : Nat) : List Nat × Nat :=
  walkPeaks (fun sizes peakSize hit => if hit then sizes ++ [peakSize] else sizes) (bitLength size)
    size []

def peakMapHeight (pos : Nat) : Nat × Nat :=
  walkPeaks (fun bitmap _ hit => 2 * bitmap + hit.toNat) (bitLength pos) pos 0

def nLeaves (size : Nat) : Nat :=
  let (sizes, height) := peakSizesHeight size
  let nleaves := (sizes.map fun n => (n + 1) / 2).sum
  if height = 0 then nleaves else nleaves + 1

def insertionToPmmrIndex (sz : Nat) : Nat :=
  if sz = 0 then 0 else 2 * (sz - 1) - countOnes (sz - 1) + 1

def bintreePostorderHeight (num : Nat) : Nat :=
  if num = 0 then 0 else (peakMapHeight (num - 1)).2

def isLeaf (pos : Nat) : Bool := bintreePostorderHeight pos == 0

def family (pos : Nat) : Nat × Nat :=
  let (peakMap, height) := peakMapHeight (pos - 1)
  let peak := 2 ^ height
  if peakMap.testBit height then
    (pos + 1, pos + 1 - 2 * peak)
  else
    (pos + 2 * peak, pos + 2 * peak - 1)

def path.go (peakMap lastPos fuel height current : Nat) : List Nat :=
  match fuel with
  | 0 => []
  | fuel + 1 =>
    if current ≤ lastPos then
      let step := if peakMap.testBit height then 1 else 2 * 2 ^ height
      current :: go peakMap lastPos fuel (height + 1) (current + step)
    else
      []

def path (pos lastPos : Nat) : List Nat :=
  let (peakMap, height) := peakMapHeight (pos - 1)
  path.go peakMap lastPos (lastPos + 1) height pos

theorem walkBits_peakMap {k n : Nat} (acc : Nat) (hn : n < 2 ^ k)
    : walkBits (fun bitmap _ hit => 2 * bitmap + hit.toNat) k n acc = acc * 2 ^ k + n := by
  induction k generalizing n acc with
  | zero =>
    have : n = 0 := by omega
    subst this
    simp [walkBits]
  | succ k ih =>
    unfold walkBits
    split
    . rw [ih _ (by omega)]
      simp only [Bool.toNat_true]
      have : (2 * acc + 1) * 2 ^ k = acc * 2 ^ (k + 1) + 2 ^ k := by ring
      omega
    . rw [ih _ (by omega)]
      simp only [Bool.toNat_false]
      ring

theorem sum_walkBits_peakSizes (acc : List Nat) (hn : n < 2 ^ k)
    : ((walkBits (fun sizes peakSize hit => if hit then sizes ++ [peakSize] else sizes) k n acc).map
        fun n => (n + 1) / 2).sum
        =
      (acc.map fun n => (n + 1) / 2).sum + n := by
  induction k generalizing n acc with
  | zero =>
    have : n = 0 := by omega
    subst this
    simp [walkBits]
  | succ k ih =>
    have hpow : 0 < 2 ^ k := by positivity
    have hhalf : (2 ^ (k + 1) - 1 + 1) / 2 = 2 ^ k := by omega
    unfold walkBits
    split
    . rw [ih _ (by omega)]
      simp only [if_true, List.map_append, List.sum_append, List.map_cons, List.map_nil,
        List.sum_cons, List.sum_nil, hhalf]
      omega
    . rw [ih _ (by omega)]
      simp

theorem peakMapHeight_mmrSize_add (h : mmrSize n + r < mmrSize (n + 1))
    : peakMapHeight (mmrSize n + r) = (n, r) := by
  have hn : n < 2 ^ bitLength (mmrSize n + r) := by
    have := le_mmrSize n
    have := lt_two_pow_bitLength (mmrSize n + r)
    omega
  unfold peakMapHeight
  rw [walkPeaks_mmrSize_add _ _ hn (.inr h)]
  rw [walkBits_peakMap _ hn]
  simp

theorem nLeaves_mmrSize_add (h : mmrSize n + r < mmrSize (n + 1))
    : nLeaves (mmrSize n + r) = if r = 0 then n else n + 1 := by
  have hn : n < 2 ^ bitLength (mmrSize n + r) := by
    have := le_mmrSize n
    have := lt_two_pow_bitLength (mmrSize n + r)
    omega
  unfold nLeaves peakSizesHeight
  rw [walkPeaks_mmrSize_add _ _ hn (.inr h)]
  simp only [sum_walkBits_peakSizes _ hn, List.map_nil, List.sum_nil, Nat.zero_add]

theorem mmrSize_lt_succ (n : Nat)
    : mmrSize n < mmrSize (n + 1) := mmrSize_lt_mmrSize (by omega)

theorem walkBits_peaks (acc : Nat × List Nat) (hn : n < 2 ^ k)
    : ∃ peaks,
        walkBits (fun (acc : Nat × List Nat) (peakSize : Nat) (hit : Bool) =>
            if hit then (acc.1 + peakSize, acc.2 ++ [acc.1 + peakSize]) else acc) k n acc
          =
        (acc.1 + mmrSize n, acc.2 ++ peaks)
          ∧
        (0 < n → acc.1 + mmrSize n ∈ peaks) := by
  induction k generalizing n acc with
  | zero =>
    have : n = 0 := by omega
    subst this
    exact ⟨[], by simp [walkBits, mmrSize_zero], by simp⟩
  | succ k ih =>
    unfold walkBits
    split
    . next hbit =>
      obtain ⟨m, rfl⟩ : ∃ m, n = 2 ^ k + m := ⟨n - 2 ^ k, by omega⟩
      have hm : m < 2 ^ k := by omega
      have hsize := mmrSize_two_pow_add hm
      rw [Nat.add_sub_cancel_left]
      obtain ⟨peaks, hpeaks, hlast⟩ := ih (acc.1 + (2 ^ (k + 1) - 1),
        acc.2 ++ [acc.1 + (2 ^ (k + 1) - 1)]) hm
      refine ⟨(acc.1 + (2 ^ (k + 1) - 1)) :: peaks, ?_, ?_⟩
      . simp only [↓reduceIte]
        rw [hpeaks, hsize, Nat.add_assoc, List.append_assoc]
        rfl
      . intro _
        by_cases hzero : m = 0
        . rw [hsize, hzero, mmrSize_zero]
          exact List.mem_cons_self
        . rw [hsize, ← Nat.add_assoc]
          exact List.mem_cons_of_mem _ (hlast (by omega))
    . next hbit =>
      simp only [Bool.false_eq_true, ↓reduceIte]
      exact ih acc (by omega)

theorem mmrSize_mem_peaks (hn : 0 < n)
    : mmrSize n ∈ peaks (mmrSize n) := by
  have hbits : n < 2 ^ bitLength (mmrSize n) := by
    have := le_mmrSize n
    have := lt_two_pow_bitLength (mmrSize n)
    omega
  obtain ⟨list, hlist, hlast⟩ := walkBits_peaks (0, []) hbits
  have hwalk := walkPeaks_mmrSize_add (r := 0) (fun (acc : Nat × List Nat) (peakSize : Nat)
    (hit : Bool) => if hit then (acc.1 + peakSize, acc.2 ++ [acc.1 + peakSize]) else acc) (0, []) hbits
    (.inr (mmrSize_lt_succ n))
  unfold peaks
  rw [Nat.add_zero] at hwalk
  dsimp only
  rw [hwalk, hlist]
  simpa using hlast hn

-- the position of a leaf, given the number of leaves before it
def leafPos (n : Nat) : Nat := mmrSize n + 1

theorem insertionToPmmrIndex_succ (n : Nat)
    : insertionToPmmrIndex (n + 1) = leafPos n := by
  simp [insertionToPmmrIndex, leafPos, mmrSize]

theorem isLeaf_leafPos (n : Nat)
    : isLeaf (leafPos n) = true := by
  have := peakMapHeight_mmrSize_add (n := n) (r := 0) (mmrSize_lt_succ n)
  simp only [Nat.add_zero] at this
  simp [isLeaf, bintreePostorderHeight, leafPos, this]

theorem leafPos_lt_leafPos (h : m < n)
    : leafPos m < leafPos n := by
  have := mmrSize_lt_mmrSize h
  unfold leafPos
  omega

theorem leafPos_injective
    : Function.Injective leafPos := by
  intro m n h
  rcases Nat.lt_trichotomy m n with hlt | heq | hlt
  . have := leafPos_lt_leafPos hlt
    omega
  . exact heq
  . have := leafPos_lt_leafPos hlt
    omega

theorem leafPos_le_mmrSize_iff
    : leafPos m ≤ mmrSize n ↔ m < n := by
  unfold leafPos
  constructor
  . intro h
    by_contra hge
    rcases Nat.lt_or_ge n m with hlt | hge'
    . have := mmrSize_lt_mmrSize hlt
      omega
    . have : m = n := by omega
      subst this
      omega
  . intro h
    exact mmrSize_lt_mmrSize h

theorem nLeaves_mmrSize (n : Nat)
    : nLeaves (mmrSize n) = n := by
  have := nLeaves_mmrSize_add (n := n) (r := 0) (mmrSize_lt_succ n)
  simpa using this

theorem nLeaves_leafPos (n : Nat)
    : nLeaves (leafPos n) = n + 1 := by
  rcases Nat.lt_or_ge (mmrSize n + 1) (mmrSize (n + 1)) with hlt | hge
  . have := nLeaves_mmrSize_add hlt
    simpa [leafPos] using this
  . have heq : leafPos n = mmrSize (n + 1) := by
      have := mmrSize_lt_succ n
      unfold leafPos
      omega
    rw [heq]
    exact nLeaves_mmrSize (n + 1)

/-!
A new leaf is followed by one parent for each of the trailing ones of the number of leaves.
-/

theorem mmrSize_succ_of_testBit (hones : ∀ i < height, n.testBit i = true)
    (hzero : n.testBit height = false)
    : mmrSize (n + 1) = leafPos n + height := by
  unfold leafPos
  induction height generalizing n with
  | zero =>
    have heven : n % 2 = 0 := by
      simpa using hzero
    have hdiv : (n + 1) / 2 = n / 2 := by omega
    rw [mmrSize_eq (n + 1), mmrSize_eq n, hdiv]
    omega
  | succ height ih =>
    have hodd : n % 2 = 1 := by
      simpa using hones 0 (by omega)
    have hhalf := ih (n := n / 2)
      (fun i hi => by
        rw [Nat.testBit_div_two]
        exact hones (i + 1) (by omega))
      (by rw [Nat.testBit_div_two]; exact hzero)
    have hdiv : (n + 1) / 2 = n / 2 + 1 := by omega
    rw [mmrSize_eq (n + 1), mmrSize_eq n, hdiv]
    omega

theorem le_of_testBit_lt {n height : Nat} (hones : ∀ i < height, n.testBit i = true)
    : height ≤ n := by
  cases height with
  | zero => omega
  | succ height =>
    have hge : 2 ^ height ≤ n := Nat.ge_two_pow_of_testBit (hones height (by omega))
    have hlt : height < 2 ^ height := Nat.lt_two_pow_self
    omega

theorem mmrSize_two_pow_mul_add (hr : r < 2 ^ k)
    : mmrSize (2 ^ k * m + r) = mmrSize (2 ^ k * m) + mmrSize r := by
  induction k generalizing r with
  | zero =>
    have : r = 0 := by omega
    subst this
    rfl
  | succ k ih =>
    have hdouble : 2 ^ (k + 1) * m = 2 * (2 ^ k * m) := by ring
    have hhalf : mmrSize (2 ^ (k + 1) * m) = 2 ^ (k + 1) * m + mmrSize (2 ^ k * m) := by
      rw [mmrSize_eq, hdouble, Nat.mul_div_cancel_left _ (by omega)]
    have hdiv : (2 ^ (k + 1) * m + r) / 2 = 2 ^ k * m + r / 2 := by omega
    rw [mmrSize_eq (_ + r), hdiv, ih (by omega), hhalf, mmrSize_eq r]
    omega

theorem mmrSize_two_pow_sub_one (k : Nat)
    : mmrSize (2 ^ k - 1) + k + 2 = 2 * 2 ^ k := by
  induction k with
  | zero => rfl
  | succ k ih =>
    have hpos : 0 < 2 ^ k := by positivity
    have hdiv : (2 ^ (k + 1) - 1) / 2 = 2 ^ k - 1 := by omega
    rw [mmrSize_eq, hdiv]
    omega

theorem exists_of_testBit (hones : ∀ i ≤ height, n.testBit i = true)
    : ∃ m, n = 2 ^ height * (2 * m + 1) + (2 ^ height - 1) := by
  induction height generalizing n with
  | zero =>
    have hodd : n % 2 = 1 := by
      simpa using hones 0 (Nat.le_refl 0)
    exact ⟨n / 2, by omega⟩
  | succ height ih =>
    have hodd : n % 2 = 1 := by
      simpa using hones 0 (by omega)
    obtain ⟨m, hm⟩ := ih (n := n / 2) fun i hi => by
      rw [Nat.testBit_div_two]
      exact hones (i + 1) (by omega)
    have hpos : 0 < 2 ^ height := by positivity
    have hdouble : 2 ^ (height + 1) * (2 * m + 1) = 2 * (2 ^ height * (2 * m + 1)) := by ring
    exact ⟨m, by omega⟩

theorem bintreePostorderHeight_mmrSize_add (h : mmrSize n + r < mmrSize (n + 1))
    : bintreePostorderHeight (mmrSize n + r + 1) = r := by
  simp [bintreePostorderHeight, peakMapHeight_mmrSize_add h]

theorem exists_mmrSize_lt_le (hpos : 0 < pos)
    : ∃ n, mmrSize n < pos ∧ pos ≤ mmrSize (n + 1) := by
  have hex : ∃ n, pos ≤ mmrSize (n + 1) := ⟨pos, by have := le_mmrSize (pos + 1); omega⟩
  refine ⟨Nat.find hex, ?_, Nat.find_spec hex⟩
  rcases hfind : Nat.find hex with _ | n
  . exact hpos
  . have := Nat.find_min hex (m := n) (by omega)
    omega

theorem eq_leafPos_of_le (hleaf : isLeaf pos = true) (hlt : mmrSize n < pos) (hle : pos ≤ mmrSize (n + 1))
    : pos = leafPos n := by
  obtain ⟨r, rfl⟩ : ∃ r, pos = mmrSize n + r + 1 := ⟨pos - mmrSize n - 1, by omega⟩
  unfold isLeaf at hleaf
  rw [bintreePostorderHeight_mmrSize_add (by omega)] at hleaf
  simp only [beq_iff_eq] at hleaf
  subst hleaf
  rfl

theorem exists_eq_leafPos (hpos : 0 < pos) (hleaf : isLeaf pos = true)
    : ∃ n, pos = leafPos n := by
  obtain ⟨n, hlt, hle⟩ := exists_mmrSize_lt_le hpos
  exact ⟨n, eq_leafPos_of_le hleaf hlt hle⟩

end Pmmr
end Epic
