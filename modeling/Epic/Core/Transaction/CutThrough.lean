import Epic.Core.Transaction.Aggregate
import Epic.Core.Transaction.Sorted

/-!
This module contains what cut-through leaves: of every hash as many inputs as there are more inputs than
outputs, and the other way round.
-/

namespace Epic

section

variable {α : Type} (hash : α → Hash)

def SortedByHash (l : List α) : Prop := l.Pairwise fun a b => ¬ hash b < hash a

variable {hash}

theorem Hash.not_lt_trans {a b c : Hash} (hab : ¬ b < a) (hbc : ¬ c < b)
    : ¬ c < a := by
  intro hca
  rcases Hash.lt_trichotomy a b with hlt | rfl | hgt
  . exact hbc (Hash.lt_trans hca hlt)
  . exact hbc hca
  . exact hab hgt

theorem Hash.not_lt_total (a b : Hash)
    : ¬ b < a ∨ ¬ a < b := by
  by_cases h : b < a
  . exact .inr fun hlt => Hash.lt_irrefl a (Hash.lt_trans hlt h)
  . exact .inl h

theorem Hash.eq_of_not_lt {a b : Hash} (hab : ¬ b < a) (hba : ¬ a < b)
    : a = b := by
  rcases Hash.lt_trichotomy a b with hlt | heq | hgt
  . exact absurd hlt hba
  . exact heq
  . exact absurd hgt hab

theorem perm_sortByHash (hash : α → Hash) (l : List α)
    : (sortByHash hash l).Perm l := List.perm_insertionSort _ l

variable (hash) in
theorem sorted_sortByHash (l : List α)
    : SortedByHash hash (sortByHash hash l) := by
  have htotal : Std.Total (fun a b : α => ¬ hash b < hash a) := ⟨fun a b => Hash.not_lt_total _ _⟩
  have htrans : IsTrans α (fun a b => ¬ hash b < hash a) := ⟨fun a b c => Hash.not_lt_trans⟩
  exact List.pairwise_insertionSort _ l

theorem sortByHash_of_sorted (h : SortedByHash hash l)
    : sortByHash hash l = l := List.Pairwise.insertionSort_eq h

theorem map_hash_eq_of_count {l k : List α} (hl : SortedByHash hash l) (hk : SortedByHash hash k)
    (hcount : ∀ x, (l.map hash).count x = (k.map hash).count x)
    : l.map hash = k.map hash := by
  apply @List.Perm.eq_of_pairwise Hash (fun a b => ¬ b < a)
  . intro a b _ _
    exact Hash.eq_of_not_lt
  . exact List.pairwise_map.mpr hl
  . exact List.pairwise_map.mpr hk
  . exact List.perm_iff_count.mpr hcount

theorem eq_of_map_hash_eq {l k : List α} (hinj : ∀ a ∈ l, ∀ b ∈ k, hash a = hash b → a = b)
    (h : l.map hash = k.map hash)
    : l = k := by
  induction l generalizing k with
  | nil => exact (List.map_eq_nil_iff.mp h.symm).symm
  | cons a l ih =>
    cases k with
    | nil => simp at h
    | cons b k =>
      rw [List.map_cons, List.map_cons, List.cons.injEq] at h
      rw [hinj a List.mem_cons_self b List.mem_cons_self h.1]
      congr 1
      exact ih (fun a ha b hb => hinj a (List.mem_cons_of_mem _ ha) b (List.mem_cons_of_mem _ hb)) h.2

theorem count_eq_zero_of_lt (h : SortedByHash hash (a :: l))
    (hlt : x < hash a)
    : ((a :: l).map hash).count x = 0 := by
  apply List.count_eq_zero_of_not_mem
  intro hmem
  obtain ⟨b, hb, rfl⟩ := List.mem_map.mp hmem
  rcases List.mem_cons.mp hb with rfl | hb
  . exact Hash.lt_irrefl _ hlt
  . exact (List.pairwise_cons.mp h).1 b hb hlt

theorem hasTwins_eq_false {l : List α} (h : SortedByHash hash l)
    : hasTwins (l.map hash) = false ↔ (l.map hash).Nodup := by
  induction l with
  | nil => simp [hasTwins]
  | cons a l ih =>
    cases l with
    | nil => simp [hasTwins]
    | cons b l =>
      have hrest := ih (List.pairwise_cons.mp h).2
      have hab := (List.pairwise_cons.mp h).1 b List.mem_cons_self
      have hfirst : hasTwins ((a :: b :: l).map hash)
          = (decide (hash a = hash b) || hasTwins ((b :: l).map hash)) := rfl
      have hcons : ((a :: b :: l).map hash).Nodup
          ↔ hash a ∉ (b :: l).map hash ∧ ((b :: l).map hash).Nodup := List.nodup_cons
      rw [hfirst, Bool.or_eq_false_iff, hrest, decide_eq_false_iff_not, hcons]
      refine and_congr_left fun hnodup => ?_
      constructor
      . intro hne hmem
        obtain ⟨c, hc, heq⟩ := List.mem_map.mp hmem
        rcases List.mem_cons.mp hc with rfl | hc
        . exact hne heq.symm
        . -- a is not above b, which is not above an element with the hash of a
          have hbc := (List.pairwise_cons.mp (List.pairwise_cons.mp h).2).1 c hc
          rw [heq] at hbc
          exact hne (Hash.eq_of_not_lt hab hbc)
      . intro hnot heq
        exact hnot (heq ▸ List.mem_map_of_mem List.mem_cons_self)

end

namespace Transaction

variable {env : Env}

theorem cutMatched_sublist (env : Env) (fuel : Nat) (inputs : List Input) (outputs : List Output)
    : (cutMatched env fuel inputs outputs).1.Sublist inputs
        ∧ (cutMatched env fuel inputs outputs).2.Sublist outputs := by
  fun_induction cutMatched env fuel inputs outputs with
  | case1 fuel i inputs o outputs _ rest ih => exact ⟨ih.1.cons_cons i, ih.2⟩
  | case2 fuel i inputs o outputs _ _ rest ih => exact ⟨ih.1, ih.2.cons_cons o⟩
  | case3 fuel i inputs o outputs _ _ ih => exact ⟨ih.1.cons i, ih.2.cons o⟩
  | case4 => exact ⟨.refl _, .refl _⟩

theorem count_cutMatched {fuel : Nat} {inputs : List Input} {outputs : List Output}
    (hinputs : SortedByHash (Input.hash env) inputs) (houtputs : SortedByHash (Output.hash env) outputs)
    (hfuel : inputs.length + outputs.length ≤ fuel) (x : Hash)
    : ((cutMatched env fuel inputs outputs).1.map (Input.hash env)).count x
          = (inputs.map (Input.hash env)).count x - (outputs.map (Output.hash env)).count x
        ∧
      ((cutMatched env fuel inputs outputs).2.map (Output.hash env)).count x
          = (outputs.map (Output.hash env)).count x - (inputs.map (Input.hash env)).count x := by
  fun_induction cutMatched env fuel inputs outputs with
  | case1 fuel i inputs o outputs hlt rest ih =>
    have hzero := count_eq_zero_of_lt houtputs hlt
    have hrest := ih (List.pairwise_cons.mp hinputs).2 houtputs (by simp only [List.length_cons] at *; omega)
    simp only [List.map_cons, List.count_cons, beq_iff_eq] at hrest hzero ⊢
    by_cases hx : i.hash env = x
    . subst hx
      simp only [rest, ↓reduceIte] at hrest ⊢
      omega
    . simp only [rest, hx, ↓reduceIte] at hrest ⊢
      omega
  | case2 fuel i inputs o outputs hlt hgt rest ih =>
    have hzero := count_eq_zero_of_lt hinputs hgt
    have hrest := ih hinputs (List.pairwise_cons.mp houtputs).2 (by simp only [List.length_cons] at *; omega)
    simp only [List.map_cons, List.count_cons, beq_iff_eq] at hrest hzero ⊢
    by_cases hx : o.hash env = x
    . subst hx
      simp only [rest, ↓reduceIte] at hrest ⊢
      omega
    . simp only [rest, hx, ↓reduceIte] at hrest ⊢
      omega
  | case3 fuel i inputs o outputs hlt hgt ih =>
    have heq : i.hash env = o.hash env := Hash.eq_of_not_lt hgt hlt
    have hrest := ih (List.pairwise_cons.mp hinputs).2 (List.pairwise_cons.mp houtputs).2
      (by simp only [List.length_cons] at hfuel; omega)
    simp only [List.map_cons, List.count_cons, heq]
    omega
  | case4 fuel inputs outputs hshape =>
    cases inputs with
    | nil => simp
    | cons i inputs =>
      cases outputs with
      | nil => simp
      | cons o outputs =>
        cases fuel with
        | zero => simp at hfuel
        | succ fuel => exact absurd rfl (hshape fuel i inputs o outputs rfl rfl)

structure CutsThrough (env : Env) (inputs inputs' : List Input) (outputs outputs' : List Output) : Prop where
  nodup : (outputs.map (Output.hash env)).Nodup
  mem_inputs : ∀ i ∈ inputs', i ∈ inputs
  mem_outputs : ∀ o ∈ outputs', o ∈ outputs
  count_inputs : ∀ x, (inputs'.map (Input.hash env)).count x
    = (inputs.map (Input.hash env)).count x - (outputs.map (Output.hash env)).count x
  count_outputs : ∀ x, (outputs'.map (Output.hash env)).count x
    = (outputs.map (Output.hash env)).count x - (inputs.map (Input.hash env)).count x

theorem cutThrough_eq_ok
    (h : cutThrough env inputs outputs = .ok (inputs', outputs'))
    : CutsThrough env inputs inputs' outputs outputs' := by
  obtain ⟨⟨⟩, htwins, h⟩ := Outcome.bind_eq_ok.mp h
  rw [Outcome.require_eq_ok, hasTwins_eq_false (sorted_sortByHash _ outputs)] at htwins
  rw [Outcome.pure_eq_ok, Outcome.ok.injEq] at h
  have hinputs := (perm_sortByHash (Input.hash env) inputs)
  have houtputs := (perm_sortByHash (Output.hash env) outputs)
  have hcount := count_cutMatched (sorted_sortByHash (Input.hash env) inputs)
    (sorted_sortByHash (Output.hash env) outputs) le_rfl
  have hsublist := cutMatched_sublist env
    ((sortByHash (Input.hash env) inputs).length + (sortByHash (Output.hash env) outputs).length)
    (sortByHash (Input.hash env) inputs) (sortByHash (Output.hash env) outputs)
  rw [h] at hsublist
  simp only [h, (hinputs.map _).count_eq, (houtputs.map _).count_eq] at hcount
  exact ⟨(houtputs.map _).nodup_iff.mp htwins, fun i hi => hinputs.mem_iff.mp (hsublist.1.subset hi),
    fun o ho => houtputs.mem_iff.mp (hsublist.2.subset ho), fun x => (hcount x).1, fun x => (hcount x).2⟩

theorem exists_cutThrough (inputs : List Input)
    (h : (outputs.map (Output.hash env)).Nodup)
    : ∃ inputs' outputs', cutThrough env inputs outputs = .ok (inputs', outputs') := by
  have htwins : hasTwins ((sortByHash (Output.hash env) outputs).map (Output.hash env)) = false := by
    rw [hasTwins_eq_false (sorted_sortByHash _ outputs)]
    exact ((perm_sortByHash (Output.hash env) outputs).map _).nodup_iff.mpr h
  refine ⟨_, _, Outcome.bind_eq_ok.mpr ⟨(), Outcome.require_eq_ok.mpr htwins, rfl⟩⟩

section

variable {txs : List Transaction} {aggTx : Transaction}

-- aggregation does not change what cut-through leaves
structure Aggregates (env : Env) (txs : List Transaction) (aggTx : Transaction) : Prop where
  mem_inputs : ∀ i ∈ aggTx.body.inputs, i ∈ txs.flatMap (·.body.inputs)
  mem_outputs : ∀ o ∈ aggTx.body.outputs, o ∈ txs.flatMap (·.body.outputs)
  nodup : (aggTx.body.outputs.map (Output.hash env)).Nodup
    → ((txs.flatMap (·.body.outputs)).map (Output.hash env)).Nodup
  count_inputs : ∀ x,
    (aggTx.body.inputs.map (Input.hash env)).count x - (aggTx.body.outputs.map (Output.hash env)).count x
      =
    ((txs.flatMap (·.body.inputs)).map (Input.hash env)).count x
      - ((txs.flatMap (·.body.outputs)).map (Output.hash env)).count x
  count_outputs : ∀ x,
    (aggTx.body.outputs.map (Output.hash env)).count x - (aggTx.body.inputs.map (Input.hash env)).count x
      =
    ((txs.flatMap (·.body.outputs)).map (Output.hash env)).count x
      - ((txs.flatMap (·.body.inputs)).map (Input.hash env)).count x
  kernels : aggTx.body.kernels.Perm (txs.flatMap (·.body.kernels))

theorem aggregate_eq_ok (h : aggregate env txs = .ok aggTx)
    : Aggregates env txs aggTx := by
  unfold aggregate at h
  split at h
  . obtain rfl := Outcome.ok.inj h
    constructor <;> simp [Transaction.empty, TransactionBody.empty]
  . obtain rfl := Outcome.ok.inj h
    constructor <;> simp
  . simp only [Outcome.bind_eq_ok, Outcome.mapErr_eq_ok] at h
    obtain ⟨⟨inputs, outputs⟩, hcut, offset, -, h⟩ := h
    obtain rfl : _ = aggTx := Outcome.ok.inj h
    have hcuts := cutThrough_eq_ok hcut
    have hinputs := perm_sortByHash (Input.hash env) inputs
    have houtputs := perm_sortByHash (Output.hash env) outputs
    constructor
    . exact fun i hi => hcuts.mem_inputs i (hinputs.mem_iff.mp hi)
    . exact fun o ho => hcuts.mem_outputs o (houtputs.mem_iff.mp ho)
    . exact fun _ => hcuts.nodup
    . intro x
      simp only [withOffset, new, TransactionBody.sort, (hinputs.map _).count_eq, (houtputs.map _).count_eq,
        hcuts.count_inputs, hcuts.count_outputs]
      omega
    . intro x
      simp only [withOffset, new, TransactionBody.sort, (hinputs.map _).count_eq, (houtputs.map _).count_eq,
        hcuts.count_inputs, hcuts.count_outputs]
      omega
    . exact (perm_sortByHash _ _).trans (perm_sortByHash _ _)

end

end Transaction

end Epic
