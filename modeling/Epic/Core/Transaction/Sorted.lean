import Epic.Core.Transaction

/-!
This module contains what the checks of the order and of the cut-through say about a transaction body:
its elements are distinct and no input has the hash of an output.
-/

namespace Epic

namespace Hash

theorem lt_trans {a b c : Hash} (hab : a < b) (hbc : b < c)
    : a < c := List.lt_trans (α := UInt8) hab hbc

theorem lt_irrefl (a : Hash)
    : ¬ a < a := List.lt_irrefl (α := UInt8) a.bytes

theorem lt_trichotomy (a b : Hash)
    : a < b ∨ a = b ∨ b < a := by
  rcases Std.lt_trichotomy a.bytes b.bytes with hlt | heq | hgt
  . exact .inl hlt
  . exact .inr (.inl (congrArg Hash.mk heq))
  . exact .inr (.inr hgt)

theorem lt_of_not_lt {a b : Hash} (h : ¬ b < a) (hne : a ≠ b)
    : a < b := by
  rcases lt_trichotomy a b with hlt | heq | hgt
  . exact hlt
  . exact absurd heq hne
  . exact absurd hgt h

end Hash

theorem pairwise_of_verifySortedAndUnique {hashes : List Hash}
    (h : verifySortedAndUnique hashes = .ok ())
    : hashes.Pairwise (· < ·) := by
  have hchain : hashes.IsChain (· < ·) := by
    fun_induction verifySortedAndUnique hashes with
    | case1 a b rest hlt => simp at h
    | case2 b rest hlt => simp at h
    | case3 a b rest hlt hne ih =>
      exact .cons_cons (Hash.lt_of_not_lt hlt hne) (ih h)
    | case4 hashes hshape =>
      match hashes with
      | [] => exact .nil
      | [a] => exact .singleton a
      | a :: b :: rest => exact absurd rfl (hshape a b rest)
  have htrans : IsTrans Hash (· < ·) := ⟨fun _ _ _ => Hash.lt_trans⟩
  exact List.isChain_iff_pairwise.mp hchain

theorem verifySortedAndUnique_eq_ok {hashes : List Hash} {u : Unit}
    : verifySortedAndUnique hashes = .ok u ↔ hashes.Pairwise (· < ·) := by
  refine ⟨pairwise_of_verifySortedAndUnique, ?_⟩
  intro h
  fun_induction verifySortedAndUnique hashes with
  | case1 a b rest hlt =>
    have hab := (List.pairwise_cons.mp h).1 b List.mem_cons_self
    exact absurd (Hash.lt_trans hab hlt) (Hash.lt_irrefl a)
  | case2 b rest hlt =>
    exact absurd ((List.pairwise_cons.mp h).1 b List.mem_cons_self) (Hash.lt_irrefl b)
  | case3 a b rest hlt hne ih => exact ih (List.pairwise_cons.mp h).2
  | case4 => rfl

theorem nodup_of_pairwise_lt {hashes : List Hash} (h : hashes.Pairwise (· < ·))
    : hashes.Nodup := by
  apply h.imp
  rintro a b hlt rfl
  exact Hash.lt_irrefl a hlt

theorem OutputFeatures.toU8_injective
    : Function.Injective OutputFeatures.toU8 := by
  intro x y h
  cases x <;> cases y <;> first | rfl | exact absurd h (by decide)

theorem OutputIdentifier.write_injective
    : Function.Injective OutputIdentifier.write := by
  rintro ⟨xFeatures, xCommit⟩ ⟨yFeatures, yCommit⟩ h
  simp only [OutputIdentifier.write, Ser.writeU8, List.singleton_append, List.cons.injEq] at h
  rw [OutputFeatures.toU8_injective h.1, List.Vector.eq xCommit yCommit h.2]

theorem Input.hash_injective (hinj : Function.Injective env.blake2b)
    : Function.Injective (Input.hash env) := by
  rintro ⟨features, commit⟩ ⟨features', commit'⟩ h
  have hsame : (⟨features, commit⟩ : OutputIdentifier) = ⟨features', commit'⟩ :=
    OutputIdentifier.write_injective (hinj h)
  injection hsame with hfeatures hcommit
  rw [hfeatures, hcommit]

namespace TransactionBody

theorem ne_of_cutThroughLoop {fuel : Nat} {inputs outputs : List Hash}
    (hinputs : inputs.Pairwise (· < ·)) (houtputs : outputs.Pairwise (· < ·))
    (hfuel : inputs.length + outputs.length ≤ fuel) (h : cutThroughLoop fuel inputs outputs = .ok ())
    : ∀ x ∈ inputs, ∀ y ∈ outputs, x ≠ y := by
  fun_induction cutThroughLoop fuel inputs outputs with
  | case1 fuel x inputs y outputs hlt ih =>
    rw [List.pairwise_cons] at hinputs
    have hrest := ih hinputs.2 houtputs (by simp only [List.length_cons] at *; omega) h
    intro x' hx' y' hy'
    rcases List.mem_cons.mp hx' with rfl | hx'
    . rintro rfl
      rcases List.mem_cons.mp hy' with rfl | hy'
      . exact Hash.lt_irrefl _ hlt
      . exact Hash.lt_irrefl _ (Hash.lt_trans hlt ((List.pairwise_cons.mp houtputs).1 _ hy'))
    . exact hrest x' hx' y' hy'
  | case2 fuel x inputs y outputs hlt hgt ih =>
    rw [List.pairwise_cons] at houtputs
    have hrest := ih hinputs houtputs.2 (by simp only [List.length_cons] at *; omega) h
    intro x' hx' y' hy'
    rcases List.mem_cons.mp hy' with rfl | hy'
    . rintro rfl
      rcases List.mem_cons.mp hx' with rfl | hx'
      . exact Hash.lt_irrefl _ hgt
      . exact Hash.lt_irrefl _ (Hash.lt_trans hgt ((List.pairwise_cons.mp hinputs).1 _ hx'))
    . exact hrest x' hx' y' hy'
  | case3 fuel x inputs y outputs hlt hgt => simp at h
  | case4 fuel inputs outputs hshape =>
    intro x hx y hy
    match fuel, inputs, outputs with
    | _, [], _ => contradiction
    | _, _, [] => contradiction
    | 0, _ :: _, _ :: _ => simp at hfuel
    | fuel + 1, x :: inputs, y :: outputs => exact absurd rfl (hshape fuel x inputs y outputs rfl rfl)

theorem cutThroughLoop_of_ne {fuel : Nat} {inputs outputs : List Hash}
    (h : ∀ x ∈ inputs, ∀ y ∈ outputs, x ≠ y)
    : cutThroughLoop fuel inputs outputs = .ok () := by
  fun_induction cutThroughLoop fuel inputs outputs with
  | case1 fuel x inputs y outputs hlt ih =>
    exact ih fun x' hx' => h x' (List.mem_cons_of_mem _ hx')
  | case2 fuel x inputs y outputs hlt hgt ih =>
    exact ih fun x' hx' y' hy' => h x' hx' y' (List.mem_cons_of_mem _ hy')
  | case3 fuel x inputs y outputs hlt hgt =>
    exact absurd (Hash.lt_of_not_lt hgt (h x List.mem_cons_self y List.mem_cons_self)) hlt
  | case4 => rfl

structure Sorted (env : Env) (body : TransactionBody) : Prop where
  inputs : (body.inputs.map (·.hash env)).Nodup
  outputs : (body.outputs.map (·.hash env)).Nodup
  disjoint : ∀ x ∈ body.inputs, ∀ y ∈ body.outputs, x.hash env ≠ y.hash env

theorem verifySorted_eq_ok {env : Env} {body : TransactionBody}
    : body.verifySorted env = .ok ()
        ↔
      (body.inputs.map (·.hash env)).Pairwise (· < ·)
        ∧ (body.outputs.map (·.hash env)).Pairwise (· < ·)
        ∧ (body.kernels.map (·.hash env)).Pairwise (· < ·) := by
  simp [verifySorted, Outcome.bind_eq_ok, verifySortedAndUnique_eq_ok]

theorem sorted_of_verify {body : TransactionBody} (hsorted : body.verifySorted env = .ok ())
    (hcut : body.verifyCutThrough env = .ok ())
    : body.Sorted env := by
  obtain ⟨hinputs, houtputs, -⟩ := verifySorted_eq_ok.mp hsorted
  refine ⟨nodup_of_pairwise_lt hinputs, nodup_of_pairwise_lt houtputs, ?_⟩
  intro x hx y hy
  exact ne_of_cutThroughLoop hinputs houtputs (by simp) hcut _ (List.mem_map_of_mem hx) _
    (List.mem_map_of_mem hy)

theorem sorted_of_validate {body : TransactionBody}
    (h : body.validate env weighting = .ok ())
    : body.Sorted env := by
  unfold validate validateRead at h
  simp only [Outcome.bind_eq_ok] at h
  obtain ⟨⟨⟩, ⟨⟨⟩, -, ⟨⟩, hsorted, hcut⟩, -⟩ := h
  exact sorted_of_verify hsorted hcut

theorem verifyFeatures_eq_ok {body : TransactionBody}
    : body.verifyFeatures = .ok ()
        ↔
      (∀ o ∈ body.outputs, o.features ≠ .coinbase) ∧ (∀ k ∈ body.kernels, k.features ≠ .coinbase) := by
  simp [verifyFeatures, verifyOutputFeatures, verifyKernelFeatures, Outcome.bind_eq_ok, Output.isCoinbase,
    TxKernel.isCoinbase]

end TransactionBody

end Epic
