import Epic.Core.Transaction.Conservation
import Epic.Core.Transaction.CutThrough
import Mathlib.Data.Multiset.UnionInter

/-!
This module contains the fee and the weight of an aggregate. The fee is the sum of the fees, the weight
is at most the sum of the weights. A transaction that lowers the ratio of the two has a lower one itself.
-/

namespace Epic
namespace Transaction

variable {env : Env} {txs : List Transaction} {tx aggTx aggTx' : Transaction}

def matched (env : Env) (txs : List Transaction) : Nat :=
  (((txs.flatMap (·.body.inputs)).map (Input.hash env) : Multiset Hash)
    ∩ ((txs.flatMap (·.body.outputs)).map (Output.hash env) : Multiset Hash)).card

theorem matched_le_append (txs : List Transaction) (tx : Transaction)
    : matched env txs ≤ matched env (txs ++ [tx]) := by
  have hin : ((txs.flatMap (·.body.inputs)).map (Input.hash env) : Multiset Hash)
      ≤ (((txs ++ [tx]).flatMap (·.body.inputs)).map (Input.hash env) : Multiset Hash) := by
    rw [List.flatMap_append, List.map_append]
    exact Multiset.coe_le.mpr (List.sublist_append_left _ _).subperm
  have hout : ((txs.flatMap (·.body.outputs)).map (Output.hash env) : Multiset Hash)
      ≤ (((txs ++ [tx]).flatMap (·.body.outputs)).map (Output.hash env) : Multiset Hash) := by
    rw [List.flatMap_append, List.map_append]
    exact Multiset.coe_le.mpr (List.sublist_append_left _ _).subperm
  exact Multiset.card_le_card (Multiset.le_inter (Multiset.inter_le_left.trans hin)
    (Multiset.inter_le_right.trans hout))

theorem length_of_cutThrough
    (h : CutsThrough env inputs inputs' outputs outputs')
    : inputs'.length + ((inputs.map (Input.hash env) : Multiset Hash)
          ∩ (outputs.map (Output.hash env) : Multiset Hash)).card = inputs.length
        ∧
      outputs'.length + ((inputs.map (Input.hash env) : Multiset Hash)
          ∩ (outputs.map (Output.hash env) : Multiset Hash)).card = outputs.length := by
  have hin : (inputs'.map (Input.hash env) : Multiset Hash)
      = (inputs.map (Input.hash env) : Multiset Hash) - (outputs.map (Output.hash env) : Multiset Hash) := by
    ext x
    simp only [Multiset.coe_count, Multiset.count_sub, h.count_inputs]
  have hout : (outputs'.map (Output.hash env) : Multiset Hash)
      = (outputs.map (Output.hash env) : Multiset Hash) - (inputs.map (Input.hash env) : Multiset Hash) := by
    ext x
    simp only [Multiset.coe_count, Multiset.count_sub, h.count_outputs]
  have hinCard := congrArg Multiset.card hin
  have houtCard := congrArg Multiset.card hout
  rw [Multiset.coe_card, List.length_map] at hinCard houtCard
  rw [hinCard, houtCard]
  constructor
  . rw [← Multiset.card_add, Multiset.sub_add_inter]
    simp
  . rw [← Multiset.card_add, Multiset.inter_comm, Multiset.sub_add_inter]
    simp

theorem length_of_aggregate (h : aggregate env txs = .ok aggTx)
    : ∃ cut, aggTx.body.inputs.length + cut = (txs.flatMap (·.body.inputs)).length
        ∧ aggTx.body.outputs.length + cut = (txs.flatMap (·.body.outputs)).length
        ∧ cut ≤ matched env txs
        ∧ (2 ≤ txs.length → cut = matched env txs) := by
  unfold aggregate at h
  split at h
  . obtain rfl := Outcome.ok.inj h
    exact ⟨0, rfl, rfl, Nat.zero_le _, by simp⟩
  . obtain rfl := Outcome.ok.inj h
    exact ⟨0, by simp, by simp, Nat.zero_le _, by simp⟩
  . simp only [Outcome.bind_eq_ok, Outcome.mapErr_eq_ok] at h
    obtain ⟨⟨inputs, outputs⟩, hcut, offset, -, h⟩ := h
    obtain rfl : _ = aggTx := Outcome.ok.inj h
    obtain ⟨hin, hout⟩ := length_of_cutThrough (cutThrough_eq_ok hcut)
    refine ⟨matched env _, ?_, ?_, le_rfl, fun _ => rfl⟩
    . rw [← hin]
      simp only [withOffset, new, TransactionBody.sort, length_sortByHash, matched]
    . rw [← hout]
      simp only [withOffset, new, TransactionBody.sort, length_sortByHash, matched]

theorem txWeight_pos (tx : Transaction)
    : 0 < tx.txWeight := by
  simp only [txWeight, TransactionBody.bodyWeight, TransactionBody.weight]
  omega

theorem txWeight_lt (tx : Transaction)
    : tx.txWeight < 2 ^ 64 := by
  simp only [txWeight, TransactionBody.bodyWeight, TransactionBody.weight]
  omega

theorem weight_eq (h : 4 * outputLen + kernelLen < 2 ^ 64)
    : TransactionBody.weight inputLen outputLen kernelLen
        = max (4 * outputLen + kernelLen - inputLen) 1 := by
  simp only [TransactionBody.weight]
  omega

theorem txWeight_aggregate_le (h : aggregate env txs = .ok aggTx)
    (h' : aggregate env (txs ++ [tx]) = .ok aggTx') (hne : txs ≠ [])
    (hsize : 4 * ((txs ++ [tx]).flatMap (·.body.outputs)).length
      + ((txs ++ [tx]).flatMap (·.body.kernels)).length < 2 ^ 64)
    : aggTx'.txWeight ≤ aggTx.txWeight + tx.txWeight := by
  obtain ⟨cut, hin, hout, hcut, -⟩ := length_of_aggregate h
  obtain ⟨cut', hin', hout', -, hcut'⟩ := length_of_aggregate h'
  have hkernels := (aggregate_eq_ok h).kernels.length_eq
  have hkernels' := (aggregate_eq_ok h').kernels.length_eq
  have hmatched : matched env txs ≤ matched env (txs ++ [tx]) := matched_le_append txs tx
  have hlen : 1 ≤ txs.length := List.length_pos_iff.mpr hne
  specialize hcut' (by rw [List.length_append, List.length_singleton]; omega)
  simp only [List.flatMap_append, List.length_append, List.flatMap_singleton] at *
  simp only [txWeight, TransactionBody.bodyWeight]
  rw [weight_eq (by omega), weight_eq (by omega), weight_eq (by omega)]
  omega

theorem exactFee_aggregate (h : aggregate env txs = .ok aggTx)
    : aggTx.body.exactFee = (txs.map (·.body.exactFee)).sum := by
  have hkernels := (aggregate_eq_ok h).kernels
  unfold TransactionBody.exactFee
  rw [(hkernels.map _).sum_eq]
  simp [List.flatMap, List.sum_flatten, Function.comp_def]

theorem toNat_feeToWeight
    (h : (tx.feeToWeight checks : Outcome ε UInt64) = .ok ratio) (hfee : tx.body.exactFee * 1000 < 2 ^ 64)
    : ratio.toNat = tx.body.exactFee * 1000 / tx.txWeight := by
  have hexact : tx.fee.toNat = tx.body.exactFee := by
    rw [fee, TransactionBody.toNat_fee]
    omega
  have hthousand : (1000 : UInt64).toNat = 1000 := rfl
  have hweight : (UInt64.ofNat tx.txWeight).toNat = tx.txWeight := by
    exact UInt64.toNat_ofNat_of_lt' tx.txWeight_lt
  unfold feeToWeight at h
  rw [MachineInt.mul_eq_ok (by rw [hexact, hthousand]; exact hfee), Outcome.ok_bind] at h
  have hscaled : (tx.fee * 1000).toNat = tx.body.exactFee * 1000 := by
    rw [UInt64.toNat_mul, hexact, hthousand, Nat.mod_eq_of_lt hfee]
  unfold MachineInt.div at h
  split at h
  . contradiction
  . obtain rfl := Outcome.ok.inj h
    simp only [MachineInt.toInt, hscaled, hweight]
    rw [Int.tdiv_eq_ediv_of_nonneg (Int.natCast_nonneg _), ← Int.natCast_ediv]
    have hle := Nat.div_le_self (tx.body.exactFee * 1000) tx.txWeight
    have hnat := MachineInt.toInt_ofInt (α := UInt64) (tx.body.exactFee * 1000 / tx.txWeight : Nat)
      (Int.natCast_nonneg _) (by simp only [MachineInt.hi]; omega)
    exact Int.ofNat_inj.mp hnat

theorem feeToWeight_lt {ε : Type} {checks : Bool} {ratio ratio' own : UInt64}
    (h : aggregate env txs = .ok aggTx) (h' : aggregate env (txs ++ [tx]) = .ok aggTx') (hne : txs ≠ [])
    (hsize : 4 * ((txs ++ [tx]).flatMap (·.body.outputs)).length
      + ((txs ++ [tx]).flatMap (·.body.kernels)).length < 2 ^ 64)
    (hfee : ((txs ++ [tx]).map (·.body.exactFee)).sum * 1000 < 2 ^ 64)
    (hratio : (aggTx.feeToWeight checks : Outcome ε UInt64) = .ok ratio)
    (hratio' : (aggTx'.feeToWeight checks : Outcome ε UInt64) = .ok ratio')
    (hown : (tx.feeToWeight checks : Outcome ε UInt64) = .ok own)
    (hlt : ratio' < ratio)
    : own < ratio := by
  have hagg := exactFee_aggregate h
  have hagg' := exactFee_aggregate h'
  have hweight := txWeight_aggregate_le h h' hne hsize
  simp only [List.map_append, List.map_cons, List.map_nil, List.sum_append, List.sum_cons, List.sum_nil]
    at hfee hagg'
  rw [← hagg, Nat.add_zero] at hfee hagg'
  have hratio := toNat_feeToWeight hratio
    (Nat.lt_of_le_of_lt (Nat.mul_le_mul_right 1000 (Nat.le_add_right _ _)) hfee)
  have hratio' := toNat_feeToWeight hratio' (hagg' ▸ hfee)
  have hown := toNat_feeToWeight hown
    (Nat.lt_of_le_of_lt (Nat.mul_le_mul_right 1000 (Nat.le_add_left _ _)) hfee)
  clear hsize
  rw [UInt64.lt_iff_toNat_lt] at hlt ⊢
  by_contra hge
  have hpos : 0 < aggTx'.txWeight := txWeight_pos aggTx'
  have hothers : ratio.toNat * aggTx.txWeight ≤ aggTx.body.exactFee * 1000 := by
    rw [hratio]
    exact Nat.div_mul_le_self _ _
  have hnew : ratio.toNat * tx.txWeight ≤ tx.body.exactFee * 1000 := by
    apply (Nat.mul_le_mul_right _ (Nat.le_of_not_lt hge)).trans
    rw [hown]
    exact Nat.div_mul_le_self _ _
  have hboth : ratio.toNat ≤ aggTx'.body.exactFee * 1000 / aggTx'.txWeight := by
    rw [Nat.le_div_iff_mul_le hpos]
    calc ratio.toNat * aggTx'.txWeight
      _ ≤ ratio.toNat * (aggTx.txWeight + tx.txWeight) := Nat.mul_le_mul_left _ hweight
      _ = ratio.toNat * aggTx.txWeight + ratio.toNat * tx.txWeight := Nat.mul_add _ _ _
      _ ≤ aggTx'.body.exactFee * 1000 := by omega
  omega

end Transaction
end Epic
