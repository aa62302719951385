import Epic.Core.Genesis
import Epic.Core.Transparent

/-!
This module contains the sums of kernel offsets as sums of scalars. A blinding factor is a number of 32
bytes, a valid one is less than the order of the group, and sums are taken modulo the order.
-/

namespace Epic

namespace BlindingFactor

def value (bf : BlindingFactor) : Nat := Bytes.ofBE bf.toList

def ofScalar (order : Nat) (n : ℤ) : BlindingFactor := ⟨Bytes.beBytes 32 (n % order).toNat, by simp⟩

theorem value_zero
    : value .zero = 0 := by decide

theorem value_injective
    : Function.Injective value := by
  intro a b h
  exact List.Vector.eq a b (Bytes.ofBE_injective (by simp) h)

theorem eq_zero_iff {bf : BlindingFactor}
    : bf = .zero ↔ bf.value = 0 := by
  rw [← value_zero]
  exact value_injective.eq_iff.symm

end BlindingFactor

open BlindingFactor

structure ScalarArithmetic (secp : Secp) (order : Nat) : Prop where
  order_pos : 0 < order
  order_le : order ≤ 256 ^ 32
  secretKey : ∀ bf : BlindingFactor, secp.secretKey bf = if 0 < bf.value ∧ bf.value < order then some bf else none
  blindSum : ∀ positive negative : List BlindingFactor, secp.blindSum positive negative
    = some (ofScalar order (((positive.map value).sum : ℤ) - ((negative.map value).sum : ℤ)))

namespace ScalarArithmetic

section

variable {secp : Secp} {order : Nat} (g : ScalarArithmetic secp order)

def IsValid (order : Nat) (bf : BlindingFactor) : Prop := bf.value < order

instance (order : Nat) (bf : BlindingFactor) : Decidable (IsValid order bf) :=
  inferInstanceAs (Decidable (bf.value < order))

def difference (order : Nat) (positive negative : List BlindingFactor) : BlindingFactor :=
  ofScalar order (((positive.map value).sum : ℤ) - ((negative.map value).sum : ℤ))

include g in
theorem value_ofScalar (n : ℤ)
    : (ofScalar order n).value = (n % order).toNat := by
  have hpos := g.order_pos
  have hle := g.order_le
  have hlt := Int.emod_lt_of_pos n (by exact_mod_cast hpos : (0 : ℤ) < order)
  have hvalue : (ofScalar order n).value = (n % order).toNat % 256 ^ 32 := Bytes.ofBE_beBytes 32 _
  rw [hvalue, Nat.mod_eq_of_lt (by omega)]

include g in
theorem ofScalar_eq_zero_iff
    : ofScalar order n = .zero ↔ (order : ℤ) ∣ n := by
  have hnonneg := Int.emod_nonneg n (by exact_mod_cast g.order_pos.ne' : (order : ℤ) ≠ 0)
  rw [eq_zero_iff, g.value_ofScalar, Int.dvd_iff_emod_eq_zero]
  omega

include g in
theorem toSecrets_eq (l : List BlindingFactor)
    : toSecrets secp l = l.filter fun bf => 0 < bf.value ∧ bf.value < order := by
  induction l with
  | nil => rfl
  | cons bf l ih =>
    have hcons : toSecrets secp (bf :: l) = (toSecrets secp [bf]) ++ toSecrets secp l := by
      unfold toSecrets
      rw [← List.filterMap_append, ← List.filter_append, List.singleton_append]
    have hone : toSecrets secp [bf] = [bf].filter fun bf => 0 < bf.value ∧ bf.value < order := by
      unfold toSecrets
      by_cases hzero : bf = .zero
      . rw [hzero]
        simp [value_zero]
      . have hpos : 0 < bf.value := Nat.pos_of_ne_zero fun h => hzero (eq_zero_iff.mpr h)
        rw [List.filter_cons_of_pos (by simpa using hzero), List.filter_nil, List.filterMap_cons,
          BlindingFactor.secretKey, if_neg hzero, g.secretKey]
        by_cases hlt : bf.value < order <;> simp [hpos, hlt]
    rw [hcons, hone, ih, ← List.filter_append, List.singleton_append]

theorem sum_filter_value {l : List BlindingFactor} (h : ∀ bf ∈ l, IsValid order bf)
    : ((l.filter fun bf => 0 < bf.value ∧ bf.value < order).map value).sum = (l.map value).sum := by
  induction l with
  | nil => rfl
  | cons bf l ih =>
    obtain ⟨hbf, hl⟩ := List.forall_mem_cons.mp h
    rw [List.map_cons, List.sum_cons, ← ih hl, List.filter_cons]
    rcases Nat.eq_zero_or_pos bf.value with hzero | hpos
    . simp [hzero]
    . have hlt : bf.value < order := hbf
      simp [hpos, hlt]

include g in
theorem exists_sumKernelOffsets (positive negative : List BlindingFactor)
    : ∃ sum, sumKernelOffsets secp positive negative = .ok sum := by
  unfold sumKernelOffsets
  dsimp only
  split
  . exact ⟨_, rfl⟩
  . rw [g.blindSum]
    exact ⟨_, rfl⟩

include g in
theorem sumKernelOffsets_eq {positive negative : List BlindingFactor}
    (hpositive : ∀ bf ∈ positive, IsValid order bf) (hnegative : ∀ bf ∈ negative, IsValid order bf)
    : sumKernelOffsets secp positive negative
        =
      .ok (if ∃ bf ∈ positive, bf ≠ .zero then difference order positive negative else .zero) := by
  have hempty : (toSecrets secp positive).isEmpty = true ↔ ¬ ∃ bf ∈ positive, bf ≠ .zero := by
    rw [List.isEmpty_iff, g.toSecrets_eq, List.filter_eq_nil_iff]
    push Not
    apply forall₂_congr
    intro bf hbf
    have hlt : bf.value < order := hpositive bf hbf
    simp [hlt, eq_zero_iff]
  unfold sumKernelOffsets
  dsimp only
  by_cases hsome : ∃ bf ∈ positive, bf ≠ .zero
  . rw [if_pos hsome, if_neg (fun h => hempty.mp h hsome), g.blindSum, g.toSecrets_eq, g.toSecrets_eq,
      sum_filter_value hpositive, sum_filter_value hnegative]
    rfl
  . rw [if_neg hsome, if_pos (hempty.mpr hsome)]

include g in
theorem zero_eq_difference_iff
    (hzero : ¬ ∃ bf ∈ positive, bf ≠ .zero)
    : .zero = difference order positive negative ↔ order ∣ (negative.map value).sum := by
  have hsum : (positive.map value).sum = 0 := by
    apply List.sum_eq_zero
    intro n hn
    obtain ⟨bf, hbf, rfl⟩ := List.mem_map.mp hn
    exact eq_zero_iff.mp (by_contra fun hne => hzero ⟨bf, hbf, hne⟩)
  rw [eq_comm, difference, g.ofScalar_eq_zero_iff, hsum, Nat.cast_zero, zero_sub, Int.dvd_neg,
    Int.natCast_dvd_natCast]

def SumExact (secp : Secp) (order : Nat) (positive negative : List BlindingFactor) : Prop :=
  ((∀ bf ∈ positive ++ negative, IsValid order bf) →
      sumKernelOffsets secp positive negative = .ok (difference order positive negative))
    ∧
  ((∃ bf ∈ positive ++ negative, ¬ IsValid order bf) →
      ∃ e, sumKernelOffsets secp positive negative = .err e)

include g in
theorem sumExact_iff (positive negative : List BlindingFactor)
    : SumExact secp order positive negative
        ↔
      (∀ bf ∈ positive ++ negative, IsValid order bf)
        ∧ ((∃ bf ∈ positive, bf ≠ .zero) ∨ order ∣ (negative.map value).sum) := by
  by_cases hvalid : ∀ bf ∈ positive ++ negative, IsValid order bf
  . obtain ⟨hpositive, hnegative⟩ := List.forall_mem_append.mp hvalid
    have hexact : SumExact secp order positive negative
        ↔ sumKernelOffsets secp positive negative = .ok (difference order positive negative) := by
      refine ⟨fun h => h.1 hvalid, fun h => ⟨fun _ => h, ?_⟩⟩
      rintro ⟨bf, hbf, hnot⟩
      exact absurd (hvalid bf hbf) hnot
    rw [hexact, and_iff_right hvalid, g.sumKernelOffsets_eq hpositive hnegative, Outcome.ok.injEq]
    by_cases hsome : ∃ bf ∈ positive, bf ≠ .zero
    . rw [if_pos hsome]
      exact iff_of_true rfl (.inl hsome)
    . rw [if_neg hsome, or_iff_right hsome, g.zero_eq_difference_iff hsome]
  . refine iff_of_false ?_ fun h => hvalid h.1
    rintro ⟨-, herr⟩
    obtain ⟨sum, hsum⟩ := g.exists_sumKernelOffsets positive negative
    push Not at hvalid
    obtain ⟨e, he⟩ := herr hvalid
    rw [hsum] at he
    contradiction

def BlockExact (env : Env) (order : Nat) (b : Block) (prev : BlindingFactor) : Prop :=
  (IsValid order b.header.totalKernelOffset ∧ IsValid order prev →
      b.blockKernelOffset env prev = .ok (difference order [b.header.totalKernelOffset] [prev]))
    ∧
  (b.header.totalKernelOffset ≠ prev →
    ¬ IsValid order b.header.totalKernelOffset ∨ ¬ IsValid order prev →
      ∃ e, b.blockKernelOffset env prev = .err e)

theorem blockExact_iff (g : ScalarArithmetic env.secp order) (b : Block) (prev : BlindingFactor)
    : BlockExact env order b prev
        ↔
      b.header.totalKernelOffset = prev
        ∨
      IsValid order b.header.totalKernelOffset ∧ IsValid order prev
        ∧ b.header.totalKernelOffset ≠ .zero := by
  unfold BlockExact Block.blockKernelOffset
  generalize b.header.totalKernelOffset = total
  by_cases heq : total = prev
  . have hzero : difference order [total] [prev] = .zero := by
      rw [heq, difference, sub_self]
      exact g.ofScalar_eq_zero_iff.mpr (dvd_zero _)
    rw [if_pos heq, hzero]
    exact iff_of_true ⟨fun _ => rfl, fun hne => absurd heq hne⟩ (.inl heq)
  . have hall : (∀ bf ∈ [total] ++ [prev], IsValid order bf) ↔ IsValid order total ∧ IsValid order prev := by
      simp
    have hany : (∃ bf ∈ [total] ++ [prev], ¬ IsValid order bf)
        ↔ ¬ IsValid order total ∨ ¬ IsValid order prev := by simp
    have herr : (∃ e, (sumKernelOffsets env.secp [total] [prev]).mapErr BlockError.committed = .err e)
        ↔ ∃ e, sumKernelOffsets env.secp [total] [prev] = .err e := by
      simp [Outcome.mapErr_eq_err]
    have hsum := g.sumExact_iff [total] [prev]
    rw [SumExact, hall, hany] at hsum
    rw [if_neg heq, Outcome.mapErr_eq_ok, herr, or_iff_right heq, imp_iff_right heq, hsum, and_assoc]
    -- a valid factor is divisible by the order only if it is zero
    apply and_congr_right
    intro _
    apply and_congr_right
    intro hprev
    have hdvd : order ∣ ([prev].map value).sum ↔ prev = .zero := by
      rw [List.map_singleton, List.sum_singleton, eq_zero_iff]
      exact ⟨fun h => Nat.eq_zero_of_dvd_of_lt h hprev, fun h => h ▸ dvd_zero _⟩
    rw [hdvd]
    simp only [List.mem_singleton, exists_eq_left]
    exact ⟨fun h => h.elim id fun hzero htotal => heq (htotal.trans hzero.symm), .inl⟩

theorem kernel_offset_sums_exact_iff {env : Env} (g : ScalarArithmetic env.secp order)
    : (∀ positive negative,
        SumExact env.secp order positive negative
          ↔
        (∀ bf ∈ positive ++ negative, IsValid order bf)
          ∧ ((∃ bf ∈ positive, bf ≠ .zero) ∨ order ∣ (negative.map value).sum))
        ∧
      (∀ (b : Block) (prev : BlindingFactor),
        BlockExact env order b prev
          ↔
        b.header.totalKernelOffset = prev
          ∨
        IsValid order b.header.totalKernelOffset ∧ IsValid order prev
          ∧ b.header.totalKernelOffset ≠ .zero) := ⟨g.sumExact_iff, blockExact_iff g⟩

end

namespace Sample

def order : Nat := 0xFFFFFFFFFFFFFFFFFFFFFFFFFFFFFFFEBAAEDCE6AF48A03BBFD25E8CD0364141

def secp : Secp where
  __ := Transparent.secp
  secretKey bf := if 0 < value bf ∧ value bf < order then some bf else none
  blindSum positive negative :=
    some (ofScalar order (((positive.map value).sum : ℤ) - ((negative.map value).sum : ℤ)))

theorem arithmetic
    : ScalarArithmetic secp order := ⟨by decide, by decide, fun _ => rfl, fun _ _ => rfl⟩

def env : Env := { Transparent.env .mainnet with secp := secp }

def one : BlindingFactor := ofScalar order 1

def largest : BlindingFactor := .replicate 32 255

def block (total : BlindingFactor) : Block :=
  { Genesis.genesisMain with header := { Genesis.genesisMain.header with totalKernelOffset := total } }

end Sample

open Sample in
theorem kernel_offset_sums_exact_iff_one
    : SumExact secp order [one, one] [one]
        ∧
      BlockExact env order (block one) .zero := by
  have hexact := @kernel_offset_sums_exact_iff order env arithmetic
  have hone : IsValid order one := by decide
  have hall : ∀ bf ∈ [one, one] ++ [one], IsValid order bf := by simp [hone]
  exact ⟨(hexact.1 _ _).mpr ⟨hall, .inl ⟨one, by simp, by decide⟩⟩, (hexact.2 _ _).mpr (by decide)⟩

-- without a positive factor the negative ones are not subtracted, and one that is not valid is dropped
open Sample in
theorem kernel_offset_sums_drop_factors
    : sumKernelOffsets secp [] [one] = .ok .zero
        ∧
      difference order [] [one] ≠ .zero
        ∧
      sumKernelOffsets secp [largest] [] = .ok .zero
        ∧
      ¬ IsValid order largest
        ∧
      (block .zero).blockKernelOffset env one = .ok .zero := by
  decide

end ScalarArithmetic
end Epic
