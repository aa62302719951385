import Epic.Core.Transaction
import Epic.Core.Transparent

/-!
This module contains what the validation of a transaction says about the values it spends and
creates.
-/

namespace Epic

namespace TransactionBody

def exactFee (body : TransactionBody) : Nat := (body.kernels.map (·.fee.toNat)).sum

theorem toNat_foldl_fee (kernels : List TxKernel) (acc : UInt64)
    : (kernels.foldl (fun acc x => MachineInt.saturatingAdd acc x.fee) acc).toNat
        =
      min (acc.toNat + (kernels.map (·.fee.toNat)).sum) (2 ^ 64 - 1) := by
  induction kernels generalizing acc with
  | nil =>
    have := acc.toNat_lt
    simp only [List.foldl_nil, List.map_nil, List.sum_nil]
    omega
  | cons k kernels ih =>
    simp only [List.foldl_cons, List.map_cons, List.sum_cons]
    rw [ih, MachineInt.toNat_saturatingAdd]
    omega

theorem toNat_fee (body : TransactionBody)
    : body.fee.toNat = min body.exactFee (2 ^ 64 - 1) := by
  unfold fee exactFee
  rw [toNat_foldl_fee]
  simp

theorem toInt_overage (body : TransactionBody)
    : body.overage.toInt
        =
      if body.exactFee < 2 ^ 63 then
        (body.exactFee : ℤ)
      else
        min (body.exactFee : ℤ) (2 ^ 64 - 1) - 2 ^ 64 := by
  have hfee := body.toNat_fee
  unfold overage
  rw [MachineInt.toInt_toInt64]
  split <;> split <;> omega

end TransactionBody

namespace Transaction

variable {S : Type} [AddCommGroup S]

theorem value_of_validate {env : Env} {weighting : Weighting} {tx : Transaction}
    (o : Opening env.secp S) (h : tx.validate env weighting = .ok ())
    (hkernels : ∀ k ∈ tx.body.kernels, o.value k.excess = 0)
    : o.total (tx.body.outputs.map (·.commit)) + tx.body.overage.toInt
        =
      o.total (tx.body.inputs.map (·.commit)) := by
  unfold validate at h
  simp only [Outcome.bind_eq_ok, Outcome.mapErr_eq_ok] at h
  obtain ⟨-, -, -, -, r, hsums, -⟩ := h
  obtain ⟨-, -, heq⟩ := o.value_of_verifyKernelSums hsums
  have hzero : o.total (tx.body.kernels.map (·.excess)) = 0 := by
    unfold Opening.total
    rw [List.map_map]
    apply List.sum_eq_zero
    simpa using hkernels
  simp only [TransactionBody.committed] at heq
  rw [hzero] at heq
  omega

theorem validate_conserves_value_iff {env : Env} {weighting : Weighting} {tx : Transaction}
    (o : Opening env.secp S) (h : tx.validate env weighting = .ok ())
    (hkernels : ∀ k ∈ tx.body.kernels, o.value k.excess = 0)
    : (o.total (tx.body.inputs.map (·.commit))
          =
        o.total (tx.body.outputs.map (·.commit)) + tx.body.exactFee
          ∧
        o.total (tx.body.outputs.map (·.commit)) ≤ o.total (tx.body.inputs.map (·.commit)))
        ↔
      tx.body.exactFee < 2 ^ 63 := by
  have heq := value_of_validate o h hkernels
  rw [tx.body.toInt_overage] at heq
  split at heq <;> omega

def clearOutput (value blind : ℤ) : Output :=
  ⟨.plain, Transparent.encode (value, blind), .zero⟩

def clearTx (inputs : List (ℤ × ℤ)) (output : ℤ × ℤ) (fee : UInt64) (excess : ℤ) : Transaction where
  offset := .zero
  body := {
    inputs := inputs.map fun p => ⟨.plain, Transparent.encode p⟩
    outputs := [clearOutput output.1 output.2]
    kernels := [⟨.plain, fee, 0, Transparent.encode (0, excess), .replicate 64 0⟩] }

theorem validate_conserves_value_ten_seven_three
    : (clearTx [(10, 4)] (7, 9) 3 5).validate (Transparent.env .mainnet) .asTransaction = .ok ()
        ∧
      ((Transparent.opening.total ((clearTx [(10, 4)] (7, 9) 3 5).body.inputs.map (·.commit))
            =
          Transparent.opening.total ((clearTx [(10, 4)] (7, 9) 3 5).body.outputs.map (·.commit))
            + (clearTx [(10, 4)] (7, 9) 3 5).body.exactFee
            ∧
          Transparent.opening.total ((clearTx [(10, 4)] (7, 9) 3 5).body.outputs.map (·.commit))
            ≤
          Transparent.opening.total ((clearTx [(10, 4)] (7, 9) 3 5).body.inputs.map (·.commit)))
          ↔
        (clearTx [(10, 4)] (7, 9) 3 5).body.exactFee < 2 ^ 63) := by
  have hok : (clearTx [(10, 4)] (7, 9) 3 5).validate (Transparent.env .mainnet) .asTransaction
      = .ok () := by
    decide
  have hkernels : ∀ k ∈ (clearTx [(10, 4)] (7, 9) 3 5).body.kernels,
      Transparent.opening.value k.excess = 0 := by
    decide
  exact ⟨hok, validate_conserves_value_iff Transparent.opening hok hkernels⟩

theorem validate_creates_value
    : (clearTx [] (1, 5) 18446744073709551615 5).validate (Transparent.env .mainnet) .asTransaction
        = .ok ()
        ∧
      (∀ k ∈ (clearTx [] (1, 5) 18446744073709551615 5).body.kernels,
        Transparent.opening.value k.excess = 0)
        ∧
      Transparent.opening.total
        ((clearTx [] (1, 5) 18446744073709551615 5).body.inputs.map (·.commit)) = 0
        ∧
      Transparent.opening.total
        ((clearTx [] (1, 5) 18446744073709551615 5).body.outputs.map (·.commit)) = 1
        ∧
      (clearTx [] (1, 5) 18446744073709551615 5).body.exactFee = 2 ^ 64 - 1 := by
  decide

end Transaction

end Epic
