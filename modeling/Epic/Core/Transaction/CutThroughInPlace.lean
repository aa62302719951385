import Epic.Core.Transaction.CutThrough
import Epic.Util.TwoPointer

/-!
This module contains cut-through as the source performs it, on the two sorted vectors in place. It
computes the difference of the inputs and the outputs as multisets of hashes.
-/

namespace Epic
namespace Transaction

variable {env : Env}

def compareHashes (env : Env) (i : Input) (o : Output) : Ordering :=
  if i.hash env < o.hash env then .lt else if o.hash env < i.hash env then .gt else .eq

def cutThroughInPlace (env : Env) (inputs : List Input) (outputs : List Output)
    : Outcome TransactionError (List Input × List Output) := do
  let outputs := sortByHash (·.hash env) outputs
  .require (hasTwins (outputs.map (·.hash env)) = false) .aggregationError
  let inputs := sortByHash (·.hash env) inputs
  TwoPointer.compact (compareHashes env) inputs outputs

theorem difference_eq_cutMatched (env : Env) (fuel : Nat) (inputs : List Input) (outputs : List Output)
    : TwoPointer.difference (compareHashes env) fuel inputs outputs = cutMatched env fuel inputs outputs := by
  fun_induction cutMatched env fuel inputs outputs with
  | case1 fuel i inputs o outputs hlt rest ih =>
    simp only [TwoPointer.difference, compareHashes, hlt, ↓reduceIte, ih]
    rfl
  | case2 fuel i inputs o outputs hlt hgt rest ih =>
    simp only [TwoPointer.difference, compareHashes, hlt, hgt, ↓reduceIte, ih]
    rfl
  | case3 fuel i inputs o outputs hlt hgt ih =>
    simp only [TwoPointer.difference, compareHashes, hlt, hgt, ↓reduceIte, ih]
  | case4 fuel inputs outputs hshape =>
    unfold TwoPointer.difference
    split
    . next fuel i inputs o outputs => exact absurd rfl (hshape fuel i inputs o outputs rfl rfl)
    . rfl

theorem cutThroughInPlace_eq (env : Env) (inputs : List Input) (outputs : List Output)
    : cutThroughInPlace env inputs outputs = cutThrough env inputs outputs := by
  unfold cutThroughInPlace cutThrough
  simp only [TwoPointer.compact_eq, difference_eq_cutMatched]
  rfl

theorem sorted_cutThrough
    (h : cutThrough env inputs outputs = .ok (inputs', outputs'))
    : inputs'.Sublist (sortByHash (Input.hash env) inputs)
        ∧ outputs'.Sublist (sortByHash (Output.hash env) outputs) := by
  obtain ⟨⟨⟩, -, h⟩ := Outcome.bind_eq_ok.mp h
  rw [Outcome.pure_eq_ok, Outcome.ok.injEq] at h
  have hsublist := cutMatched_sublist env
    ((sortByHash (Input.hash env) inputs).length + (sortByHash (Output.hash env) outputs).length)
    (sortByHash (Input.hash env) inputs) (sortByHash (Output.hash env) outputs)
  rwa [h] at hsublist

theorem cut_through_is_multiset_difference (env : Env) (inputs : List Input) (outputs : List Output)
    : ((∃ e, cutThroughInPlace env inputs outputs = .err e) ↔ ¬ (outputs.map (Output.hash env)).Nodup)
        ∧
      ((outputs.map (Output.hash env)).Nodup → ∃ inputs' outputs',
        cutThroughInPlace env inputs outputs = .ok (inputs', outputs')
          ∧ (∀ x, (inputs'.map (Input.hash env)).count x
              = (inputs.map (Input.hash env)).count x - (outputs.map (Output.hash env)).count x)
          ∧ (∀ x, (outputs'.map (Output.hash env)).count x
              = (outputs.map (Output.hash env)).count x - (inputs.map (Input.hash env)).count x)
          ∧ SortedByHash (Input.hash env) inputs'
          ∧ SortedByHash (Output.hash env) outputs'
          ∧ inputs'.Subperm inputs
          ∧ outputs'.Subperm outputs
          ∧ ∀ i ∈ inputs', ∀ o ∈ outputs', i.hash env ≠ o.hash env) := by
  rw [cutThroughInPlace_eq]
  constructor
  . constructor
    . rintro ⟨e, he⟩ hnodup
      obtain ⟨inputs', outputs', hok⟩ := exists_cutThrough inputs hnodup
      rw [hok] at he
      contradiction
    . intro hnodup
      refine ⟨.aggregationError, ?_⟩
      have htwins : ¬ hasTwins ((sortByHash (Output.hash env) outputs).map (Output.hash env)) = false := by
        rwa [hasTwins_eq_false (sorted_sortByHash _ outputs),
          ((perm_sortByHash (Output.hash env) outputs).map _).nodup_iff]
      unfold cutThrough
      exact Outcome.bind_eq_err.mpr (.inl (Outcome.require_eq_err.mpr ⟨htwins, rfl⟩))
  . intro hnodup
    obtain ⟨inputs', outputs', hok⟩ := exists_cutThrough inputs hnodup
    have hcuts := cutThrough_eq_ok hok
    obtain ⟨hinputs, houtputs⟩ := sorted_cutThrough hok
    refine ⟨inputs', outputs', hok, hcuts.count_inputs, hcuts.count_outputs,
      (sorted_sortByHash _ inputs).sublist hinputs, (sorted_sortByHash _ outputs).sublist houtputs,
      hinputs.subperm.trans (perm_sortByHash _ inputs).subperm,
      houtputs.subperm.trans (perm_sortByHash _ outputs).subperm, ?_⟩
    intro i hi o ho heq
    -- a hash in both lists would occur more often among the inputs than among the outputs, and less often
    have hleft := List.count_pos_iff.mpr (List.mem_map_of_mem (f := Input.hash env) hi)
    have hright := List.count_pos_iff.mpr (List.mem_map_of_mem (f := Output.hash env) ho)
    rw [hcuts.count_inputs] at hleft
    rw [hcuts.count_outputs, ← heq] at hright
    omega

end Transaction
end Epic
