import Epic.Core.Committed.Modular
import Epic.Core.Ser.Codec
import Epic.Core.Transaction.CutThrough
import Epic.Core.Transparent

/-!
This module contains the laws of aggregation: the order of the transactions does not matter, and two
aggregates can be aggregated again. What an aggregate holds is determined by how often every hash occurs
among the inputs and the outputs of its transactions.
-/

namespace Epic

/--
Blinding factors as the elements of an abelian group. A factor is a scalar if it is zero or a secret key,
and scalars are added exactly.
-/
structure ExactScalars (secp : Secp) (S : Type) [AddCommGroup S] where
  scalar : BlindingFactor → S
  scalar_zero : scalar .zero = 0
  secretKey : ∀ {bf key}, secp.secretKey bf = some key → key = bf
  blindSum : ∀ {keys sum}, secp.blindSum keys [] = some sum →
    scalar sum = (keys.map scalar).sum ∧ (sum = .zero ∨ secp.secretKey sum = some sum)
  injective : ∀ {a b : BlindingFactor}, (a = .zero ∨ secp.secretKey a = some a) →
    (b = .zero ∨ secp.secretKey b = some b) → scalar a = scalar b → a = b

namespace ExactScalars

variable {secp : Secp} {S : Type} [AddCommGroup S] (g : ExactScalars secp S)

def IsScalar (_ : ExactScalars secp S) (bf : BlindingFactor) : Prop :=
  bf = .zero ∨ secp.secretKey bf = some bf

-- what an offset contributes: what is not a scalar is left out
def part (bf : BlindingFactor) : S :=
  if bf = .zero then 0 else if (secp.secretKey bf).isSome then g.scalar bf else 0

def total (offsets : List BlindingFactor) : S := (offsets.map g.part).sum

theorem part_of_isScalar (h : g.IsScalar bf)
    : g.part bf = g.scalar bf := by
  unfold part
  split
  . next hzero => rw [hzero, g.scalar_zero]
  . next hne =>
    rw [h.resolve_left hne, if_pos Option.isSome_some]

theorem sum_toSecrets (offsets : List BlindingFactor)
    : ((toSecrets secp offsets).map g.scalar).sum = g.total offsets := by
  induction offsets with
  | nil => rfl
  | cons bf offsets ih =>
    have hcons : g.total (bf :: offsets) = g.part bf + g.total offsets := by
      simp [total]
    rw [hcons, ← ih, part]
    unfold toSecrets
    by_cases hzero : bf = .zero
    . rw [if_pos hzero, zero_add, List.filter_cons_of_neg (by simpa using hzero)]
    . rw [if_neg hzero, List.filter_cons_of_pos (by simpa using hzero)]
      cases hkey : secp.secretKey bf with
      | none =>
        have hnone : bf.secretKey secp = none := by rw [BlindingFactor.secretKey, if_neg hzero, hkey]
        rw [List.filterMap_cons_none hnone]
        simp
      | some key =>
        have hsome : bf.secretKey secp = some key := by rw [BlindingFactor.secretKey, if_neg hzero, hkey]
        rw [List.filterMap_cons_some hsome, List.map_cons, List.sum_cons, g.secretKey hkey]
        simp

theorem sumKernelOffsets_eq_ok
    (h : sumKernelOffsets secp offsets [] = .ok sum)
    : g.scalar sum = g.total offsets ∧ g.IsScalar sum := by
  rw [← g.sum_toSecrets]
  unfold sumKernelOffsets at h
  dsimp only at h
  split at h
  . next hempty =>
    rw [List.isEmpty_iff] at hempty
    rw [← Outcome.ok.inj h, hempty, g.scalar_zero]
    exact ⟨rfl, .inl rfl⟩
  . rw [Outcome.okOr_eq_ok] at h
    exact g.blindSum h

end ExactScalars

theorem TxKernel.write_injective
    : Function.Injective TxKernel.write := by
  rintro ⟨features, fee, lockHeight, excess, excessSig⟩ ⟨features', fee', lockHeight', excess', excessSig'⟩ h
  simp only [TxKernel.write, List.append_assoc] at h
  obtain ⟨hfeatures, h⟩ := List.append_inj h rfl
  obtain ⟨hfee, h⟩ := List.append_inj h ((length_writeU64 _).trans (length_writeU64 _).symm)
  obtain ⟨hlock, h⟩ := List.append_inj h ((length_writeU64 _).trans (length_writeU64 _).symm)
  obtain ⟨hexcess, hsig⟩ := List.append_inj h (by simp)
  have hfeatures : features = features' := by
    cases features <;> cases features' <;> first | rfl | exact absurd hfeatures (by decide)
  rw [hfeatures, writeU64_inj hfee, writeU64_inj hlock, List.Vector.eq _ _ hexcess,
    List.Vector.eq _ _ hsig]

namespace Transaction

variable {env : Env}

structure Verified (env : Env) (tx : Transaction) : Prop where
  sorted : tx.body.verifySorted env = .ok ()
  cutThrough : tx.body.verifyCutThrough env = .ok ()

-- what an aggregate of verified transactions holds
structure Holds (env : Env) (txs : List Transaction) (aggTx : Transaction) : Prop where
  sorted_inputs : SortedByHash (Input.hash env) aggTx.body.inputs
  sorted_outputs : SortedByHash (Output.hash env) aggTx.body.outputs
  sorted_kernels : SortedByHash (TxKernel.hash env) aggTx.body.kernels
  count_inputs : ∀ x, (aggTx.body.inputs.map (Input.hash env)).count x
    = ((txs.flatMap (·.body.inputs)).map (Input.hash env)).count x
      - ((txs.flatMap (·.body.outputs)).map (Output.hash env)).count x
  count_outputs : ∀ x, (aggTx.body.outputs.map (Output.hash env)).count x
    = ((txs.flatMap (·.body.outputs)).map (Output.hash env)).count x
      - ((txs.flatMap (·.body.inputs)).map (Input.hash env)).count x
  nodup : ((txs.flatMap (·.body.outputs)).map (Output.hash env)).Nodup
  mem_outputs : ∀ o ∈ aggTx.body.outputs, o ∈ txs.flatMap (·.body.outputs)
  kernels : aggTx.body.kernels.Perm (txs.flatMap (·.body.kernels))

variable {txs : List Transaction} {aggTx : Transaction}

theorem sortedByHash_of_pairwise {α : Type} {hash : α → Hash} {l : List α}
    (h : (l.map hash).Pairwise (· < ·))
    : SortedByHash hash l := by
  apply (List.pairwise_map.mp h).imp
  intro a b hlt hgt
  exact Hash.lt_irrefl _ (Hash.lt_trans hlt hgt)

theorem Verified.holds (h : Verified env aggTx)
    : Holds env [aggTx] aggTx := by
  obtain ⟨hinputs, houtputs, hkernels⟩ := TransactionBody.verifySorted_eq_ok.mp h.sorted
  have hsorted := TransactionBody.sorted_of_verify h.sorted h.cutThrough
  have hdisjoint (x : Hash) : (aggTx.body.inputs.map (Input.hash env)).count x = 0
      ∨ (aggTx.body.outputs.map (Output.hash env)).count x = 0 := by
    by_contra hboth
    simp only [not_or, ← Nat.pos_iff_ne_zero, List.count_pos_iff, List.mem_map] at hboth
    obtain ⟨⟨i, hi, hix⟩, o, ho, hox⟩ := hboth
    exact hsorted.disjoint i hi o ho (hix.trans hox.symm)
  refine ⟨sortedByHash_of_pairwise hinputs, sortedByHash_of_pairwise houtputs,
    sortedByHash_of_pairwise hkernels, ?_, ?_, ?_, ?_, ?_⟩
  . intro x
    have := hdisjoint x
    simp only [List.flatMap_cons, List.flatMap_nil, List.append_nil]
    omega
  . intro x
    have := hdisjoint x
    simp only [List.flatMap_cons, List.flatMap_nil, List.append_nil]
    omega
  . simpa using hsorted.outputs
  . simp
  . simp

theorem holds_of_aggregate (hverified : ∀ tx, txs = [tx] → Verified env tx) (h : aggregate env txs = .ok aggTx)
    : Holds env txs aggTx := by
  unfold aggregate at h
  split at h
  . obtain rfl := Outcome.ok.inj h
    constructor <;> simp [Transaction.empty, TransactionBody.empty, SortedByHash]
  . obtain rfl := Outcome.ok.inj h
    exact (hverified _ rfl).holds
  . simp only [Outcome.bind_eq_ok, Outcome.mapErr_eq_ok] at h
    obtain ⟨⟨inputs, outputs⟩, hcut, offset, -, h⟩ := h
    obtain rfl : _ = aggTx := Outcome.ok.inj h
    have hcuts := cutThrough_eq_ok hcut
    have hinputs := perm_sortByHash (Input.hash env) inputs
    have houtputs := perm_sortByHash (Output.hash env) outputs
    refine ⟨sorted_sortByHash _ _, sorted_sortByHash _ _, sorted_sortByHash _ _, ?_, ?_, hcuts.nodup, ?_, ?_⟩
    . intro x
      rw [← hcuts.count_inputs]
      exact (hinputs.map _).count_eq x
    . intro x
      rw [← hcuts.count_outputs]
      exact (houtputs.map _).count_eq x
    . exact fun o ho => hcuts.mem_outputs o (houtputs.mem_iff.mp ho)
    . exact (perm_sortByHash _ _).trans (perm_sortByHash _ _)

theorem offset_of_aggregate {S : Type} [AddCommGroup S] (g : ExactScalars env.secp S)
    (h : aggregate env txs = .ok aggTx)
    : g.part aggTx.offset = g.total (txs.map (·.offset))
        ∧ ((∀ tx, txs = [tx] → g.IsScalar tx.offset) → g.IsScalar aggTx.offset) := by
  unfold aggregate at h
  split at h
  . obtain rfl := Outcome.ok.inj h
    exact ⟨if_pos rfl, fun _ => .inl rfl⟩
  . next tx =>
    obtain rfl := Outcome.ok.inj h
    exact ⟨by simp [ExactScalars.total], fun hscalar => hscalar _ rfl⟩
  . simp only [Outcome.bind_eq_ok, Outcome.mapErr_eq_ok] at h
    obtain ⟨⟨inputs, outputs⟩, -, offset, hoffset, h⟩ := h
    obtain rfl : _ = aggTx := Outcome.ok.inj h
    obtain ⟨hsum, hscalar⟩ := g.sumKernelOffsets_eq_ok hoffset
    exact ⟨(g.part_of_isScalar hscalar).trans hsum, fun _ => hscalar⟩

/--
Two transactions have the same inputs, outputs with their range proofs, kernels and offset. Inputs and
kernels are compared by their hashes, as the source compares them.
-/
structure Same (env : Env) (tx tx' : Transaction) : Prop where
  inputs : tx.body.inputs.map (Input.hash env) = tx'.body.inputs.map (Input.hash env)
  outputs : tx.body.outputs = tx'.body.outputs
  kernels : tx.body.kernels.map (TxKernel.hash env) = tx'.body.kernels.map (TxKernel.hash env)
  offset : tx.offset = tx'.offset
  eq_of_injective : Function.Injective env.blake2b → tx = tx'

theorem Same.of_hashes
    (hi : tx.body.inputs.map (Input.hash env) = tx'.body.inputs.map (Input.hash env))
    (ho : tx.body.outputs = tx'.body.outputs)
    (hk : tx.body.kernels.map (TxKernel.hash env) = tx'.body.kernels.map (TxKernel.hash env))
    (hoffset : tx.offset = tx'.offset)
    : Same env tx tx' := by
  refine ⟨hi, ho, hk, hoffset, fun hinj => ?_⟩
  have hinput := eq_of_map_hash_eq (fun a _ b _ heq => Input.hash_injective hinj heq) hi
  have hkernel := eq_of_map_hash_eq (fun a _ b _ heq => TxKernel.write_injective (hinj heq)) hk
  obtain ⟨offset, inputs, outputs, kernels⟩ := tx
  obtain ⟨offset', inputs', outputs', kernels'⟩ := tx'
  dsimp only at hoffset hinput ho hkernel
  rw [hoffset, hinput, ho, hkernel]

theorem Holds.same {txs' : List Transaction} {aggTx' : Transaction} (h : Holds env txs aggTx)
    (h' : Holds env txs' aggTx')
    (hinputs : ∀ x, (aggTx.body.inputs.map (Input.hash env)).count x
      = (aggTx'.body.inputs.map (Input.hash env)).count x)
    (houtputs : ∀ x, (aggTx.body.outputs.map (Output.hash env)).count x
      = (aggTx'.body.outputs.map (Output.hash env)).count x)
    (hmem : ∀ o ∈ aggTx.body.outputs, o ∈ txs'.flatMap (·.body.outputs))
    (hkernels : aggTx.body.kernels.Perm aggTx'.body.kernels) (hoffset : aggTx.offset = aggTx'.offset)
    : Same env aggTx aggTx' := by
  have hi := map_hash_eq_of_count h.sorted_inputs h'.sorted_inputs hinputs
  have hk := map_hash_eq_of_count h.sorted_kernels h'.sorted_kernels fun x => (hkernels.map _).count_eq x
  have ho : aggTx.body.outputs = aggTx'.body.outputs :=
    eq_of_map_hash_eq (fun a ha b hb heq =>
      List.inj_on_of_nodup_map h'.nodup (hmem a ha) (h'.mem_outputs b hb) heq)
      (map_hash_eq_of_count h.sorted_outputs h'.sorted_outputs houtputs)
  exact .of_hashes hi ho hk hoffset

theorem count_flatMap_append {α : Type} {hash : α → Hash} {f : Transaction → List α}
    (l k : List Transaction) (x : Hash)
    : (((l ++ k).flatMap f).map hash).count x
        = ((l.flatMap f).map hash).count x + ((k.flatMap f).map hash).count x := by
  rw [List.flatMap_append, List.map_append, List.count_append]

theorem Holds.perm (h : Holds env txs aggTx)
    (h' : Holds env txs' aggTx') (hperm : txs'.Perm txs) (hoffset : aggTx'.offset = aggTx.offset)
    : Same env aggTx' aggTx := by
  have hinputs := hperm.flatMap_right (·.body.inputs)
  have houtputs := hperm.flatMap_right (·.body.outputs)
  refine h'.same h ?_ ?_ ?_ ?_ hoffset
  . intro x
    rw [h'.count_inputs, h.count_inputs, (hinputs.map _).count_eq, (houtputs.map _).count_eq]
  . intro x
    rw [h'.count_outputs, h.count_outputs, (hinputs.map _).count_eq, (houtputs.map _).count_eq]
  . exact fun o ho => houtputs.mem_iff.mp (h'.mem_outputs o ho)
  . exact h'.kernels.trans ((hperm.flatMap_right _).trans h.kernels.symm)

theorem Holds.assoc (hX : Holds env X aX)
    (hY : Holds env Y aY) (hb : Holds env [aX, aY] b) (hc : Holds env (X ++ Y) c)
    (hoffset : b.offset = c.offset)
    : Same env b c := by
  have hpair {α : Type} (f : Transaction → List α) : [aX, aY].flatMap f = f aX ++ f aY := by
    simp
  refine hb.same hc ?_ ?_ ?_ ?_ hoffset
  . intro x
    have h := hb.count_inputs x
    have h' := hc.count_inputs x
    rw [hpair, hpair, List.map_append, List.map_append, List.count_append, List.count_append, hX.count_inputs,
      hX.count_outputs, hY.count_inputs, hY.count_outputs] at h
    rw [count_flatMap_append, count_flatMap_append] at h'
    omega
  . intro x
    have h := hb.count_outputs x
    have h' := hc.count_outputs x
    rw [hpair, hpair, List.map_append, List.map_append, List.count_append, List.count_append, hX.count_inputs,
      hX.count_outputs, hY.count_inputs, hY.count_outputs] at h
    rw [count_flatMap_append, count_flatMap_append] at h'
    omega
  . intro o ho
    have hmem := hb.mem_outputs o ho
    rw [hpair, List.mem_append] at hmem
    rw [List.flatMap_append, List.mem_append]
    exact hmem.imp (hX.mem_outputs o) (hY.mem_outputs o)
  . refine hb.kernels.trans (.trans ?_ hc.kernels.symm)
    rw [hpair, List.flatMap_append]
    exact hX.kernels.append hY.kernels

theorem aggregate_order_independent_associative {S : Type} [AddCommGroup S] (env : Env)
    (g : ExactScalars env.secp S) (X Y : List Transaction) (hX : ∀ tx ∈ X, Verified env tx)
    (hY : ∀ tx ∈ Y, Verified env tx)
    : (∀ X' a a', X'.Perm X → aggregate env X = .ok a → aggregate env X' = .ok a' → Same env a' a)
        ∧
      (∀ aX aY b c, aggregate env X = .ok aX → aggregate env Y = .ok aY →
        aggregate env [aX, aY] = .ok b → aggregate env (X ++ Y) = .ok c →
        (∀ tx, X ++ Y = [tx] → g.IsScalar tx.offset) →
        Same env b c) := by
  have hsingle {l : List Transaction} (hl : ∀ tx ∈ l, Verified env tx) : ∀ tx, l = [tx] → Verified env tx := by
    rintro tx rfl
    exact hl tx List.mem_cons_self
  constructor
  . intro X' a a' hperm ha ha'
    have hX' : ∀ tx ∈ X', Verified env tx := fun tx htx => hX tx (hperm.mem_iff.mp htx)
    refine (holds_of_aggregate (hsingle hX) ha).perm (holds_of_aggregate (hsingle hX') ha') hperm ?_
    -- a list of one transaction has no other order
    by_cases hone : ∃ tx, X = [tx]
    . obtain ⟨tx, rfl⟩ := hone
      obtain rfl := List.perm_singleton.mp hperm
      rw [Outcome.ok.inj (ha.symm.trans ha')]
    . obtain ⟨hpart, hscalar⟩ := offset_of_aggregate g ha
      obtain ⟨hpart', hscalar'⟩ := offset_of_aggregate g ha'
      have hscalar := hscalar fun tx htx => absurd ⟨tx, htx⟩ hone
      have hscalar' := hscalar' fun tx htx =>
        absurd ⟨tx, List.perm_singleton.mp (htx ▸ hperm.symm)⟩ hone
      rw [g.part_of_isScalar hscalar] at hpart
      rw [g.part_of_isScalar hscalar'] at hpart'
      refine g.injective hscalar' hscalar ?_
      rw [hpart, hpart']
      exact (hperm.map _).map _ |>.sum_eq
  . intro aX aY b c haX haY hb hc hone
    have hXY : ∀ tx ∈ X ++ Y, Verified env tx := fun tx htx =>
      (List.mem_append.mp htx).elim (hX tx) (hY tx)
    refine (holds_of_aggregate (hsingle hX) haX).assoc (holds_of_aggregate (hsingle hY) haY)
      (holds_of_aggregate (fun tx htx => absurd (congrArg List.length htx) (by simp)) hb)
      (holds_of_aggregate (hsingle hXY) hc) ?_
    obtain ⟨hpartX, -⟩ := offset_of_aggregate g haX
    obtain ⟨hpartY, -⟩ := offset_of_aggregate g haY
    obtain ⟨hpart, hscalar⟩ := offset_of_aggregate g hb
    obtain ⟨hpart', hscalar'⟩ := offset_of_aggregate g hc
    have hscalar := hscalar fun tx htx => absurd (congrArg List.length htx) (by simp)
    have hscalar' := hscalar' hone
    rw [g.part_of_isScalar hscalar] at hpart
    rw [g.part_of_isScalar hscalar'] at hpart'
    refine g.injective hscalar hscalar' ?_
    rw [hpart, hpart']
    simp only [ExactScalars.total, List.map_cons, List.map_nil, List.sum_cons, List.sum_nil, add_zero,
      hpartX, hpartY, List.map_append, List.sum_append]

end Transaction

namespace Modular

theorem scalar_lt (bf : BlindingFactor)
    : scalar bf < 256 ^ 32 := by
  have hlt := Bytes.ofBE_lt bf.toList
  rwa [bf.toList_length] at hlt

def scalars : ExactScalars secp (ZMod (256 ^ 32)) where
  scalar bf := scalar bf
  scalar_zero := by
    have hzero : scalar .zero = 0 := by decide
    rw [hzero, Nat.cast_zero]
  secretKey h := (Option.some.inj h).symm
  blindSum := by
    intro keys sum h
    have hval : scalar sum = (keys.map scalar).sum % 256 ^ 32 := by
      rw [← Option.some.inj h]
      exact Bytes.ofBE_beBytes 32 _
    refine ⟨?_, .inr rfl⟩
    rw [hval, ZMod.natCast_mod, Nat.cast_list_sum, List.map_map]
    rfl
  injective := by
    intro a b _ _ h
    have hmod := (ZMod.natCast_eq_natCast_iff _ _ _).mp h
    have hscalar : Bytes.ofBE a.toList = Bytes.ofBE b.toList :=
      hmod.eq_of_lt_of_lt (scalar_lt a) (scalar_lt b)
    exact List.Vector.eq a b (Bytes.ofBE_injective (by simp) hscalar)

end Modular

namespace Transaction
namespace Sample

def env : Env := { Transparent.env .mainnet with secp := Modular.secp }

def commit : Commitment := .replicate 33 1

def offset (n : UInt8) : BlindingFactor := .replicate 32 n

-- one transaction creates an output and the other spends it
def creates : Transaction := ⟨offset 1, ⟨[], [⟨.plain, commit, .zero⟩], []⟩⟩

def spends : Transaction := ⟨offset 2, ⟨[⟨.plain, commit⟩], [], []⟩⟩

theorem verified_creates
    : Verified env creates := ⟨by decide, by decide⟩

theorem verified_spends
    : Verified env spends := ⟨by decide, by decide⟩

end Sample

theorem aggregate_order_independent_associative_sample
    : ∃ b c, aggregate Sample.env [Sample.creates, Sample.spends] = .ok b
        ∧ aggregate Sample.env [Sample.spends, Sample.creates] = .ok c
        ∧ Same Sample.env c b := by
  have hverified : ∀ tx ∈ [Sample.creates, Sample.spends], Verified Sample.env tx := by
    intro tx htx
    rcases List.mem_pair.mp htx with rfl | rfl
    . exact Sample.verified_creates
    . exact Sample.verified_spends
  exact ⟨_, _, rfl, rfl, (aggregate_order_independent_associative Sample.env Modular.scalars
    [Sample.creates, Sample.spends] [] hverified (fun tx htx => absurd htx List.not_mem_nil)).1 _ _ _
    (List.Perm.swap _ _ _) rfl rfl⟩

end Transaction
end Epic
