import Epic.Core.Committed.Offsets
import Epic.Core.Transaction.AggregateLaws
import Epic.Core.Transaction.Conservation

/-!
This module contains what is left of an aggregate when some of its transactions are taken out again: the
aggregate of the others, up to what occurs more than once in it.
-/

namespace Epic

namespace ScalarArithmetic

variable {secp : Secp} {order : Nat}

theorem isScalar_iff (g : ScalarArithmetic secp order) {bf : BlindingFactor}
    : bf = .zero ∨ secp.secretKey bf = some bf ↔ IsValid order bf := by
  have hpos := g.order_pos
  rw [BlindingFactor.eq_zero_iff, g.secretKey, IsValid]
  split
  . next h => simp [h.2]
  . next h =>
    simp only [reduceCtorEq, or_false]
    omega

theorem isValid_ofScalar (g : ScalarArithmetic secp order) (n : ℤ)
    : IsValid order (.ofScalar order n) := by
  have hpos : (0 : ℤ) < order := by exact_mod_cast g.order_pos
  have hlt := Int.emod_lt_of_pos n hpos
  rw [IsValid, g.value_ofScalar]
  omega

theorem cast_value_ofScalar (g : ScalarArithmetic secp order) (n : ℤ)
    : ((BlindingFactor.ofScalar order n).value : ZMod order) = n := by
  have hnonneg := Int.emod_nonneg n (by exact_mod_cast g.order_pos.ne' : (order : ℤ) ≠ 0)
  rw [g.value_ofScalar, ← Int.cast_natCast, Int.toNat_of_nonneg hnonneg, ZMod.intCast_mod]

def exactScalars (g : ScalarArithmetic secp order) : ExactScalars secp (ZMod order) where
  scalar bf := BlindingFactor.value bf
  scalar_zero := by rw [BlindingFactor.value_zero, Nat.cast_zero]
  secretKey := by
    intro bf key h
    rw [g.secretKey] at h
    split at h
    . exact (Option.some.inj h).symm
    . contradiction
  blindSum := by
    intro keys sum h
    rw [g.blindSum, Option.some.injEq] at h
    rw [← h, g.isScalar_iff, g.cast_value_ofScalar]
    refine ⟨?_, g.isValid_ofScalar _⟩
    simp [Nat.cast_list_sum, Function.comp_def]
  injective := by
    intro a b ha hb h
    rw [g.isScalar_iff] at ha hb
    exact BlindingFactor.value_injective (((ZMod.natCast_eq_natCast_iff _ _ _).mp h).eq_of_lt_of_lt ha hb)

end ScalarArithmetic

namespace Transaction

section

variable {α : Type} {hash : α → Hash}

def keep (hash : α → Hash) (removed kept : List α) (a : α) : List α :=
  if hash a ∈ removed.map hash ∨ hash a ∈ kept.map hash then kept else kept ++ [a]

theorem without_eq_foldl (l removed : List α)
    : without hash l removed = l.foldl (keep hash removed) [] := by
  unfold without keep
  congr 1
  funext kept a
  simp [List.mem_map]

theorem count_foldl_keep (l removed kept : List α) (x : Hash)
    : ((l.foldl (keep hash removed) kept).map hash).count x
        =
      (kept.map hash).count x
        + if x ∈ l.map hash ∧ x ∉ removed.map hash ∧ x ∉ kept.map hash then 1 else 0 := by
  induction l generalizing kept with
  | nil => simp
  | cons a l ih =>
    rw [List.foldl_cons, ih, keep]
    simp only [List.map_cons, List.mem_cons]
    split
    . next hskip =>
      by_cases hx : x = hash a
      . rw [hx, if_neg (by tauto), if_neg (by tauto)]
      . simp only [hx, false_or]
    . next hkeep =>
      rw [not_or] at hkeep
      rw [List.map_append, List.count_append, List.map_singleton, List.count_singleton]
      by_cases hx : x = hash a
      . rw [hx]
        simp [hkeep]
      . have hne : ¬ hash a = x := fun h => hx h.symm
        simp [hx, hne]

theorem count_without (l removed : List α) (x : Hash)
    : ((without hash l removed).map hash).count x
        =
      if x ∈ l.map hash ∧ x ∉ removed.map hash then 1 else 0 := by
  rw [without_eq_foldl, count_foldl_keep]
  simp

theorem mem_foldl_keep {l removed kept : List α} (h : a ∈ l.foldl (keep hash removed) kept)
    : a ∈ kept ∨ a ∈ l := by
  induction l generalizing kept with
  | nil => exact .inl h
  | cons b l ih =>
    rw [List.foldl_cons] at h
    rcases ih h with hkept | hmem
    . unfold keep at hkept
      split at hkept
      . exact .inl hkept
      . rcases List.mem_append.mp hkept with hold | hnew
        . exact .inl hold
        . exact .inr (List.mem_singleton.mp hnew ▸ List.mem_cons_self)
    . exact .inr (List.mem_cons_of_mem b hmem)

theorem mem_without (h : a ∈ without hash l removed)
    : a ∈ l := by
  rw [without_eq_foldl] at h
  exact (mem_foldl_keep h).resolve_left List.not_mem_nil

theorem count_sort_sort (l : List α) (x : Hash)
    : ((sortByHash hash (sortByHash hash l)).map hash).count x = (l.map hash).count x :=
  (((perm_sortByHash hash _).trans (perm_sortByHash hash l)).map hash).count_eq x

end

open ScalarArithmetic

section

variable {env : Env} {order : Nat} {A B : List Transaction} {a b c d : Transaction}

structure Apart (env : Env) (A B : List Transaction) : Prop where
  inputs : ∀ i ∈ A.flatMap (·.body.inputs), ∀ j ∈ B.flatMap (·.body.inputs), i.hash env ≠ j.hash env
  outputs : ∀ o ∈ A.flatMap (·.body.outputs), ∀ p ∈ B.flatMap (·.body.outputs), o.hash env ≠ p.hash env
  kernels : ∀ k ∈ A.flatMap (·.body.kernels), ∀ l ∈ B.flatMap (·.body.kernels), k.hash env ≠ l.hash env
  spent : ∀ o ∈ A.flatMap (·.body.outputs), ∀ i ∈ B.flatMap (·.body.inputs), o.hash env ≠ i.hash env
  spends : ∀ i ∈ A.flatMap (·.body.inputs), ∀ o ∈ B.flatMap (·.body.outputs), i.hash env ≠ o.hash env

theorem toSecrets_isEmpty (g : ScalarArithmetic env.secp order) (h : IsValid order bf)
    : (toSecrets env.secp [bf]).isEmpty = true ↔ bf = .zero := by
  have hlt : bf.value < order := h
  rw [List.isEmpty_iff, g.toSecrets_eq, List.filter_eq_nil_iff, BlindingFactor.eq_zero_iff]
  simp only [List.mem_singleton, forall_eq, hlt, and_true, decide_eq_true_eq]
  omega

theorem deaggregate_eq_ok (g : ScalarArithmetic env.secp order) (hb : aggregate env B = .ok b)
    (hc : IsValid order c.offset) (hoffset : IsValid order b.offset)
    : deaggregate env c B
        =
      .ok ((Transaction.new env
        (sortByHash (Input.hash env) (without (Input.hash env) c.body.inputs b.body.inputs))
        (sortByHash (Output.hash env) (without (Output.hash env) c.body.outputs b.body.outputs))
        (sortByHash (TxKernel.hash env) (without (TxKernel.hash env) c.body.kernels b.body.kernels))).withOffset
          (difference order [c.offset] [b.offset])) := by
  unfold deaggregate
  rw [hb, Outcome.ok_bind]
  dsimp only
  split
  . next hempty =>
    rw [Bool.and_eq_true, toSecrets_isEmpty g hc, toSecrets_isEmpty g hoffset] at hempty
    have hzero : difference order [c.offset] [b.offset] = .zero := by
      rw [hempty.1, hempty.2, difference, sub_self, g.ofScalar_eq_zero_iff.mpr (dvd_zero _)]
    rw [hzero]
    rfl
  . have hsum : env.secp.blindSum (toSecrets env.secp [c.offset]) (toSecrets env.secp [b.offset])
        = some (difference order [c.offset] [b.offset]) := by
      rw [g.blindSum, g.toSecrets_eq, g.toSecrets_eq, sum_filter_value (by simpa using hc),
        sum_filter_value (by simpa using hoffset)]
      rfl
    rw [hsum]
    rfl

theorem isValid_aggregate (g : ScalarArithmetic env.secp order) (ha : aggregate env A = .ok a)
    (hvalid : ∀ tx ∈ A, IsValid order tx.offset)
    : IsValid order a.offset
        ∧ (BlindingFactor.value a.offset : ZMod order)
          = (A.map fun tx => (BlindingFactor.value tx.offset : ZMod order)).sum := by
  obtain ⟨hpart, hscalar⟩ := offset_of_aggregate g.exactScalars ha
  have hscalar := hscalar (by
    rintro tx rfl
    exact g.isScalar_iff.mpr (hvalid tx List.mem_cons_self))
  refine ⟨g.isScalar_iff.mp hscalar, ?_⟩
  rw [g.exactScalars.part_of_isScalar hscalar, ExactScalars.total, List.map_map] at hpart
  refine hpart.trans (congrArg List.sum (List.map_congr_left fun tx htx => ?_))
  exact g.exactScalars.part_of_isScalar (g.isScalar_iff.mpr (hvalid tx htx))

theorem offset_deaggregate (g : ScalarArithmetic env.secp order) (ha : aggregate env A = .ok a)
    (hb : aggregate env B = .ok b) (hc : aggregate env (A ++ B) = .ok c)
    (hvalid : ∀ tx ∈ A ++ B, IsValid order tx.offset)
    : difference order [c.offset] [b.offset] = a.offset := by
  obtain ⟨hA, hB⟩ := List.forall_mem_append.mp hvalid
  obtain ⟨ha, hsumA⟩ := isValid_aggregate g ha hA
  obtain ⟨-, hsumB⟩ := isValid_aggregate g hb hB
  obtain ⟨-, hsum⟩ := isValid_aggregate g hc hvalid
  apply g.exactScalars.injective (g.isScalar_iff.mpr (g.isValid_ofScalar _)) (g.isScalar_iff.mpr ha)
  change ((BlindingFactor.ofScalar order _).value : ZMod order) = (BlindingFactor.value a.offset : ZMod order)
  rw [g.cast_value_ofScalar]
  simp only [List.map_singleton, List.sum_singleton, Int.cast_sub, Int.cast_natCast]
  rw [hsum, hsumB, hsumA, List.map_append, List.sum_append, add_sub_cancel_right]

theorem exists_aggregate_of_nodup (g : ScalarArithmetic env.secp order)
    (h : ((A.flatMap (·.body.outputs)).map (Output.hash env)).Nodup)
    : ∃ a, aggregate env A = .ok a := by
  unfold aggregate
  split
  . exact ⟨_, rfl⟩
  . exact ⟨_, rfl⟩
  . obtain ⟨inputs, outputs, hcut⟩ := exists_cutThrough (A.flatMap (·.body.inputs)) h
    obtain ⟨offset, hoffset⟩ := g.exists_sumKernelOffsets (A.map (·.offset)) []
    exact ⟨_, Outcome.bind_eq_ok.mpr ⟨_, hcut, Outcome.bind_eq_ok.mpr
      ⟨_, Outcome.mapErr_eq_ok.mpr hoffset, rfl⟩⟩⟩

theorem count_eq_zero_or {α β : Type} {f : α → Hash} {f' : β → Hash} {l : List α} {k : List β}
    (h : ∀ a ∈ l, ∀ b ∈ k, f a ≠ f' b) (x : Hash)
    : (l.map f).count x = 0 ∨ (k.map f').count x = 0 := by
  by_contra hboth
  simp only [not_or, ← Nat.pos_iff_ne_zero, List.count_pos_iff, List.mem_map] at hboth
  obtain ⟨⟨a, ha, rfl⟩, b, hb, heq⟩ := hboth
  exact h a ha b hb heq.symm

theorem Apart.count (h : Apart env A B) (x : Hash)
    : (((A.flatMap (·.body.inputs)).map (Input.hash env)).count x = 0
          ∧ ((A.flatMap (·.body.outputs)).map (Output.hash env)).count x = 0)
        ∨
      (((B.flatMap (·.body.inputs)).map (Input.hash env)).count x = 0
          ∧ ((B.flatMap (·.body.outputs)).map (Output.hash env)).count x = 0) := by
  have hinputs := count_eq_zero_or h.inputs x
  have houtputs := count_eq_zero_or h.outputs x
  have hspent := count_eq_zero_or h.spent x
  have hspends := count_eq_zero_or h.spends x
  omega

theorem count_without_of_add {α : Type} {hash : α → Hash} {la lb lc : List α} {x : Hash}
    (hadd : (lc.map hash).count x = (la.map hash).count x + (lb.map hash).count x)
    (happart : (la.map hash).count x = 0 ∨ (lb.map hash).count x = 0)
    : ((without hash lc lb).map hash).count x = min 1 ((la.map hash).count x) := by
  rw [count_without]
  simp only [← List.count_pos_iff]
  split <;> omega

-- a transaction that is left after the others are taken out
structure Left (env : Env) (a d : Transaction) : Prop where
  sorted_inputs : SortedByHash (Input.hash env) d.body.inputs
  sorted_outputs : SortedByHash (Output.hash env) d.body.outputs
  sorted_kernels : SortedByHash (TxKernel.hash env) d.body.kernels
  inputs : ∀ x, (d.body.inputs.map (Input.hash env)).count x
    = min 1 ((a.body.inputs.map (Input.hash env)).count x)
  outputs : d.body.outputs = a.body.outputs
  kernels : ∀ x, (d.body.kernels.map (TxKernel.hash env)).count x
    = min 1 ((a.body.kernels.map (TxKernel.hash env)).count x)
  offset : d.offset = a.offset

theorem exists_left (g : ScalarArithmetic env.secp order) (hA : Holds env A a) (hB : Holds env B b)
    (hC : Holds env (A ++ B) c) (hapart : Apart env A B) (ha : aggregate env A = .ok a)
    (hb : aggregate env B = .ok b) (hc : aggregate env (A ++ B) = .ok c)
    (hvalid : ∀ tx ∈ A ++ B, IsValid order tx.offset)
    : ∃ d, deaggregate env c B = .ok d ∧ Left env a d := by
  have hvalidB := (List.forall_mem_append.mp hvalid).2
  refine ⟨_, deaggregate_eq_ok g hb (isValid_aggregate g hc hvalid).1 (isValid_aggregate g hb hvalidB).1, ?_⟩
  have hinputs (x : Hash) : (c.body.inputs.map (Input.hash env)).count x
      = (a.body.inputs.map (Input.hash env)).count x + (b.body.inputs.map (Input.hash env)).count x
        ∧ ((a.body.inputs.map (Input.hash env)).count x = 0
          ∨ (b.body.inputs.map (Input.hash env)).count x = 0) := by
    have hside := hapart.count x
    rw [hC.count_inputs, hA.count_inputs, hB.count_inputs, count_flatMap_append, count_flatMap_append]
    omega
  have houtputs (x : Hash) : (c.body.outputs.map (Output.hash env)).count x
      = (a.body.outputs.map (Output.hash env)).count x + (b.body.outputs.map (Output.hash env)).count x
        ∧ ((a.body.outputs.map (Output.hash env)).count x = 0
          ∨ (b.body.outputs.map (Output.hash env)).count x = 0) := by
    have hside := hapart.count x
    rw [hC.count_outputs, hA.count_outputs, hB.count_outputs, count_flatMap_append, count_flatMap_append]
    omega
  have hkernels (x : Hash) : (c.body.kernels.map (TxKernel.hash env)).count x
      = (a.body.kernels.map (TxKernel.hash env)).count x + (b.body.kernels.map (TxKernel.hash env)).count x
        ∧ ((a.body.kernels.map (TxKernel.hash env)).count x = 0
          ∨ (b.body.kernels.map (TxKernel.hash env)).count x = 0) := by
    rw [(hC.kernels.map _).count_eq, (hA.kernels.map _).count_eq, (hB.kernels.map _).count_eq,
      count_flatMap_append]
    exact ⟨rfl, count_eq_zero_or hapart.kernels x⟩
  refine ⟨sorted_sortByHash _ _, sorted_sortByHash _ _, sorted_sortByHash _ _, ?_, ?_, ?_,
    offset_deaggregate g ha hb hc hvalid⟩
  . intro x
    exact (count_sort_sort _ x).trans (count_without_of_add (hinputs x).1 (hinputs x).2)
  . -- the outputs are distinct, so that their hashes determine them
    refine eq_of_map_hash_eq (fun o ho p hp (heq : o.hash env = p.hash env) => ?_) ?_
    . have hmem := ((perm_sortByHash _ _).trans (perm_sortByHash (Output.hash env) _)).mem_iff.mp ho
      apply List.inj_on_of_nodup_map hC.nodup (hC.mem_outputs o (mem_without hmem)) ?_ heq
      rw [List.flatMap_append]
      exact List.mem_append_left _ (hA.mem_outputs p hp)
    . apply map_hash_eq_of_count (sorted_sortByHash _ _) hA.sorted_outputs
      intro x
      have hone := List.nodup_iff_count_le_one.mp hA.nodup x
      have hle := hA.count_outputs x
      rw [count_sort_sort, count_without_of_add (houtputs x).1 (houtputs x).2]
      omega
  . intro x
    exact (count_sort_sort _ x).trans (count_without_of_add (hkernels x).1 (hkernels x).2)

theorem Left.same_iff (h : Left env a d) (hA : Holds env A a)
    : Same env d a
        ↔
      (∀ x, (a.body.inputs.map (Input.hash env)).count x ≤ 1)
        ∧ (∀ x, (a.body.kernels.map (TxKernel.hash env)).count x ≤ 1) := by
  constructor
  . intro hsame
    constructor
    . intro x
      rw [← hsame.inputs, h.inputs]
      exact Nat.min_le_left _ _
    . intro x
      rw [← hsame.kernels, h.kernels]
      exact Nat.min_le_left _ _
  . rintro ⟨honeI, honeK⟩
    have hi : d.body.inputs.map (Input.hash env) = a.body.inputs.map (Input.hash env) :=
      map_hash_eq_of_count h.sorted_inputs hA.sorted_inputs fun x =>
        (h.inputs x).trans (Nat.min_eq_right (honeI x))
    have hk : d.body.kernels.map (TxKernel.hash env) = a.body.kernels.map (TxKernel.hash env) :=
      map_hash_eq_of_count h.sorted_kernels hA.sorted_kernels fun x =>
        (h.kernels x).trans (Nat.min_eq_right (honeK x))
    exact .of_hashes hi h.outputs hk h.offset

theorem deaggregate_inverts_iff (g : ScalarArithmetic env.secp order)
    (hverified : ∀ tx ∈ A ++ B, Verified env tx) (hvalid : ∀ tx ∈ A ++ B, IsValid order tx.offset)
    (hc : aggregate env (A ++ B) = .ok c) (hapart : Apart env A B)
    : ∃ a d,
        aggregate env A = .ok a
          ∧
        deaggregate env c B = .ok d
          ∧
        d.body.outputs = a.body.outputs
          ∧
        d.offset = a.offset
          ∧
        (Same env d a
          ↔
        (∀ x, ((A.flatMap (·.body.inputs)).map (Input.hash env)).count x
            ≤ ((A.flatMap (·.body.outputs)).map (Output.hash env)).count x + 1)
          ∧
        ((A.flatMap (·.body.kernels)).map (TxKernel.hash env)).Nodup) := by
  have hsingle {l : List Transaction} (hl : ∀ tx ∈ l, Verified env tx) : ∀ tx, l = [tx] → Verified env tx := by
    rintro tx rfl
    exact hl tx List.mem_cons_self
  obtain ⟨hvA, hvB⟩ := List.forall_mem_append.mp hverified
  have hC := holds_of_aggregate (hsingle hverified) hc
  have hnodup := hC.nodup
  rw [List.flatMap_append, List.map_append, List.nodup_append] at hnodup
  obtain ⟨a, ha⟩ := exists_aggregate_of_nodup g hnodup.1
  obtain ⟨b, hb⟩ := exists_aggregate_of_nodup g hnodup.2.1
  have hA := holds_of_aggregate (hsingle hvA) ha
  have hB := holds_of_aggregate (hsingle hvB) hb
  obtain ⟨d, hd, hleft⟩ := exists_left g hA hB hC hapart ha hb hc hvalid
  refine ⟨a, d, ha, hd, hleft.outputs, hleft.offset, (hleft.same_iff hA).trans (and_congr ?_ ?_)⟩
  . apply forall_congr'
    intro x
    rw [hA.count_inputs]
    omega
  . rw [List.nodup_iff_count_le_one]
    apply forall_congr'
    intro x
    rw [(hA.kernels.map _).count_eq]

end

namespace Parts

def env : Env := ScalarArithmetic.Sample.env

def commit (n : UInt8) : Commitment := .replicate 33 n

def tx (offset : ℤ) (inputs outputs : List UInt8) : Transaction :=
  ⟨.ofScalar ScalarArithmetic.Sample.order offset,
    ⟨inputs.map fun n => ⟨.plain, commit n⟩, outputs.map fun n => ⟨.plain, commit n, .zero⟩, []⟩⟩

-- the second transaction spends what the first one creates
def chained : List Transaction := [tx 1 [1] [2], tx 2 [2] [3]]

-- both transactions spend the same output
def conflicting : List Transaction := [tx 1 [1] [2], tx 2 [1] [3]]

def others : List Transaction := [tx 3 [4] [5]]

def aggregated (txs : List Transaction) : Transaction :=
  match aggregate env txs with
  | .ok tx => tx
  | _ => .empty

def left (txs : List Transaction) : Transaction :=
  match deaggregate env (aggregated (txs ++ others)) others with
  | .ok tx => tx
  | _ => .empty

theorem facts
    : (∀ tx ∈ chained ++ others, tx.body.verifySorted env = .ok () ∧ tx.body.verifyCutThrough env = .ok ())
        ∧ (∀ tx ∈ conflicting ++ others,
          tx.body.verifySorted env = .ok () ∧ tx.body.verifyCutThrough env = .ok ())
        ∧ (∀ tx ∈ chained ++ others, IsValid ScalarArithmetic.Sample.order tx.offset)
        ∧ (∀ tx ∈ conflicting ++ others, IsValid ScalarArithmetic.Sample.order tx.offset)
        ∧ aggregate env (chained ++ others) = .ok (aggregated (chained ++ others))
        ∧ aggregate env (conflicting ++ others) = .ok (aggregated (conflicting ++ others)) := by
  decide +kernel

theorem apart_chained
    : Apart env chained others := by
  constructor <;> decide

theorem apart_conflicting
    : Apart env conflicting others := by
  constructor <;> decide

end Parts

open Parts in
theorem deaggregate_inverts_iff_chained
    : ∃ a d,
        aggregate Parts.env chained = .ok a
          ∧ deaggregate Parts.env (aggregated (chained ++ others)) others = .ok d
          ∧ Same Parts.env d a := by
  obtain ⟨hverified, -, hvalid, -, hc, -⟩ := facts
  have hverified : ∀ tx ∈ chained ++ others, Verified Parts.env tx := fun tx htx =>
    ⟨(hverified tx htx).1, (hverified tx htx).2⟩
  obtain ⟨a, d, ha, hd, -, -, hsame⟩ := deaggregate_inverts_iff ScalarArithmetic.Sample.arithmetic hverified
    hvalid hc apart_chained
  have hinputs : ((chained.flatMap (·.body.inputs)).map (Input.hash Parts.env)).Nodup := by decide
  refine ⟨a, d, ha, hd, hsame.mpr ⟨fun x => ?_, by decide⟩⟩
  exact (List.nodup_iff_count_le_one.mp hinputs x).trans (Nat.le_add_left 1 _)

-- each input is kept once
open Parts in
theorem deaggregate_drops_repeated_input
    : (∀ tx ∈ conflicting ++ others, Verified Parts.env tx)
        ∧
      (∀ tx ∈ conflicting ++ others, IsValid ScalarArithmetic.Sample.order tx.offset)
        ∧
      Apart Parts.env conflicting others
        ∧
      aggregate Parts.env (conflicting ++ others) = .ok (aggregated (conflicting ++ others))
        ∧
      deaggregate Parts.env (aggregated (conflicting ++ others)) others = .ok (left conflicting)
        ∧
      aggregate Parts.env conflicting = .ok (aggregated conflicting)
        ∧
      (left conflicting).body.inputs.length = 1
        ∧
      (aggregated conflicting).body.inputs.length = 2 := by
  obtain ⟨-, hverified, -, hvalid, -, hc⟩ := facts
  exact ⟨fun tx htx => ⟨(hverified tx htx).1, (hverified tx htx).2⟩, hvalid, apart_conflicting, hc,
    by decide +kernel⟩

end Transaction
end Epic
