import Epic.Core.Genesis
import Epic.Core.Transaction.FeeToWeight
import Epic.Core.Transparent
import Epic.Pool.Pool
import Epic.Util.Precedence

/-!
This module contains the order in which the transactions of a pool are put into a block. A transaction
stands after those it spends outputs of, as long as none of these was set apart: a transaction that would
lower the ratio of the bucket of its parent gets a bucket of its own, but leaves its outputs with the
bucket of its parent, and what spends them can end up before it.
-/

namespace Epic

def Transaction.Spends (tx parent : Transaction) : Prop :=
  ∃ i ∈ tx.body.inputs, ∃ o ∈ parent.body.outputs, i.commit = o.commit

instance (tx parent : Transaction) : Decidable (tx.Spends parent) :=
  inferInstanceAs (Decidable (∃ i ∈ tx.body.inputs, ∃ o ∈ parent.body.outputs, i.commit = o.commit))

namespace Pool

def DependsOn (entries : List Transaction) (tx parent : Transaction) : Prop :=
  parent ∈ entries ∧ parent ≠ tx ∧ tx.Spends parent

def DependencyOrder (entries txs : List Transaction) : Prop :=
  ∀ pre tx post, txs = pre ++ tx :: post → ∀ parent, DependsOn entries tx parent → parent ∈ pre

theorem dependencyOrder_iff {entries txs : List Transaction}
    : DependencyOrder entries txs ↔ Follows (DependsOn entries) (fun _ => False) txs := by
  simp only [DependencyOrder, Follows, or_false]

def setsApart (env : Env) (weighting : Weighting) (st : Buckets) (tx : Transaction) : Bool :=
  match findParent st tx.body.inputs with
  | (some pos, false) =>
    st.txBuckets[pos]?.any fun bucket =>
      match bucket.aggregateWithTx env tx weighting with
      | .ok newBucket => newBucket.feeToWeight < bucket.feeToWeight
      | _ => false
  | _ => false

-- no transaction spends an output of one that was set apart before it
def NoneOfApart (env : Env) (weighting : Weighting) (st : Buckets) (txs : List Transaction) : Prop :=
  match txs with
  | [] => True
  | tx :: rest =>
    (setsApart env weighting st tx = true → ∀ tx' ∈ rest, ¬ tx'.Spends tx)
      ∧
    match bucketTransaction env weighting st tx with
    | .ok st' => NoneOfApart env weighting st' rest
    | _ => True

instance decidableNoneOfApart (env : Env) (weighting : Weighting) (st : Buckets) (txs : List Transaction)
    : Decidable (NoneOfApart env weighting st txs) :=
  match txs with
  | [] => inferInstanceAs (Decidable True)
  | tx :: rest =>
    have : Decidable (match bucketTransaction env weighting st tx with
        | .ok st' => NoneOfApart env weighting st' rest
        | _ => True) :=
      match bucketTransaction env weighting st tx with
      | .ok st' => decidableNoneOfApart env weighting st' rest
      | .err _ => inferInstanceAs (Decidable True)
      | .panic => inferInstanceAs (Decidable True)
      | .hang => inferInstanceAs (Decidable True)
    inferInstanceAs (Decidable (_ ∧ _))

structure Orderly (env : Env) (weighting : Weighting) (entries : List Transaction) : Prop where
  order : DependencyOrder entries entries
  nodup : ((entries.flatMap (·.body.outputs)).map (·.commit)).Nodup
  apart : NoneOfApart env weighting ⟨[], [], []⟩ entries
  fees : (entries.map (·.body.exactFee)).sum * 1000 < 2 ^ 64
  size : 4 * (entries.flatMap (·.body.outputs)).length + (entries.flatMap (·.body.kernels)).length < 2 ^ 64

section

variable {env : Env} {weighting : Weighting} {entries done rest : List Transaction} {st st' : Buckets}
  {tx : Transaction} {pos : Nat}

theorem findParent_concat (st : Buckets) (inputs : List Input) (i : Input)
    : findParent st (inputs ++ [i])
        =
      if st.rejected.contains i.commit then
        ((findParent st inputs).1, true)
      else
        (st.outputCommits.lookup i.commit).elim (findParent st inputs) fun pos =>
          if (findParent st inputs).1.isSome then
            ((findParent st inputs).1, true)
          else
            (some pos, (findParent st inputs).2) := by
  unfold findParent
  rw [List.foldl_append, List.foldl_cons, List.foldl_nil]
  cases st.outputCommits.lookup i.commit <;> rfl

theorem findParent_eq
    (h : findParent st inputs = (insertPos, false))
    : (∀ i ∈ inputs, i.commit ∉ st.rejected
          ∧ (st.outputCommits.lookup i.commit = none ∨ st.outputCommits.lookup i.commit = insertPos))
        ∧
      (insertPos = none ∨ ∃ i ∈ inputs, st.outputCommits.lookup i.commit = insertPos) := by
  induction inputs using List.reverseRecOn generalizing insertPos with
  | nil =>
    obtain ⟨rfl, -⟩ := Prod.mk.inj h
    simp
  | append_singleton inputs i ih =>
    rw [findParent_concat] at h
    split at h
    . simp at h
    . next hfree =>
      rw [List.contains_iff_mem] at hfree
      rw [List.forall_mem_append, List.forall_mem_singleton]
      simp only [List.mem_append, List.mem_singleton, or_and_right, exists_or, exists_eq_left]
      cases hlookup : st.outputCommits.lookup i.commit with
      | none =>
        rw [hlookup] at h
        obtain ⟨hall, hex⟩ := ih h
        exact ⟨⟨hall, hfree, .inl rfl⟩, hex.imp_right .inl⟩
      | some pos =>
        rw [hlookup, Option.elim_some] at h
        split at h
        . simp at h
        . next hnone =>
          rw [Bool.not_eq_true, Option.isSome_eq_false_iff, Option.isNone_iff_eq_none] at hnone
          obtain ⟨rfl, hfalse⟩ := Prod.mk.inj h
          obtain ⟨hall, -⟩ := ih (Prod.ext hnone hfalse)
          refine ⟨⟨fun j hj => ?_, hfree, .inr rfl⟩, .inr (.inr rfl)⟩
          have hj := hall j hj
          rw [or_self] at hj
          exact ⟨hj.1, .inl hj.2⟩

theorem lookup_outputs {outputs : List Output} {c : Commitment} (hc : c ∈ outputs.map (·.commit))
    : (outputs.map fun out => (out.commit, pos)).lookup c = some pos := by
  induction outputs with
  | nil => simp at hc
  | cons o outputs ih =>
    rw [List.map_cons, List.lookup_cons]
    cases heq : c == o.commit with
    | true => rfl
    | false =>
      apply ih
      rw [List.map_cons, List.mem_cons] at hc
      exact hc.resolve_left (beq_eq_false_iff_ne.mp heq)

theorem lookup_outputs_of_ne {outputs : List Output} {c : Commitment} (hc : c ∉ outputs.map (·.commit))
    : (outputs.map fun out => (out.commit, pos)).lookup c = none := by
  rw [List.lookup_eq_none_iff]
  intro e he
  obtain ⟨o, ho, rfl⟩ := List.mem_map.mp he
  simp only [bne_iff_ne]
  rintro rfl
  exact hc (List.mem_map_of_mem ho)

def Closed (entries : List Transaction) (b : Bucket) : Prop :=
  Follows (DependsOn entries) (fun _ => False) b.rawTxs

-- The transactions of a bucket that outputs are recorded with depend on nothing outside of it. The outputs
-- that are still to be spent are recorded with the bucket that holds their transaction.
structure Buckets.Sound (env : Env) (entries done rest : List Transaction) (st : Buckets) : Prop where
  closed : ∀ e ∈ st.outputCommits, ∃ b, st.txBuckets[e.2]? = some b ∧ Closed entries b
  found : ∀ u ∈ done, (∃ w ∈ rest, w.Spends u) → ∀ o ∈ u.body.outputs,
    o.commit ∈ st.rejected
      ∨
    ∃ pos b, st.outputCommits.lookup o.commit = some pos ∧ st.txBuckets[pos]? = some b ∧ u ∈ b.rawTxs
  ordered : ∀ b ∈ st.txBuckets, Follows (DependsOn entries)
    (fun u => ∃ b' ∈ st.txBuckets, u ∈ b'.rawTxs ∧ b.feeToWeight < b'.feeToWeight) b.rawTxs
  ratio : ∀ b ∈ st.txBuckets, ∃ aggTx, Transaction.aggregate env b.rawTxs = .ok aggTx
    ∧ (aggTx.feeToWeight env.overflowChecks : Outcome PoolError UInt64) = .ok b.feeToWeight
  sublist : ∀ b ∈ st.txBuckets, b.rawTxs.Sublist done ∧ b.rawTxs ≠ []

namespace Buckets.Sound

theorem empty
    : Buckets.Sound env entries [] rest ⟨[], [], []⟩ := by
  constructor <;> simp

theorem reject (h : st.Sound env entries done (tx :: rest))
    : (Pool.reject st tx).Sound env entries (done ++ [tx]) rest where
  closed := h.closed
  found u hu hspent o ho := by
    rcases List.mem_append.mp hu with hu | hu
    . obtain ⟨w, hw, hspends⟩ := hspent
      exact (h.found u hu ⟨w, List.mem_cons_of_mem _ hw, hspends⟩ o ho).imp_left (List.mem_append_right _)
    . rw [List.mem_singleton.mp hu] at ho
      exact .inl (List.mem_append_left _ (List.mem_map_of_mem ho))
  ordered := h.ordered
  ratio := h.ratio
  sublist b hb := ⟨(h.sublist b hb).1.trans (List.sublist_append_left _ _), (h.sublist b hb).2⟩

-- A transaction is put into a bucket. The others are kept, what they depend on stays before them.
theorem accept (h : st.Sound env entries done (tx :: rest)) {txBuckets : List Bucket} (own : Bucket)
    (hfresh : ∀ o ∈ tx.body.outputs, ∀ u ∈ done, ∀ o' ∈ u.body.outputs, o.commit ≠ o'.commit)
    (hmem : ∀ b ∈ txBuckets, b ∈ st.txBuckets ∨ b = own)
    (hgrow : ∀ (i : Nat) (b : Bucket), st.txBuckets[i]? = some b → ∃ b', txBuckets[i]? = some b'
      ∧ (∀ u ∈ b.rawTxs, u ∈ b'.rawTxs) ∧ b.feeToWeight ≤ b'.feeToWeight
      ∧ (Closed entries b → Closed entries b'))
    (hpos : ∃ b, txBuckets[pos]? = some b ∧ Closed entries b)
    (htx : (∃ w ∈ rest, w.Spends tx) → ∃ b, txBuckets[pos]? = some b ∧ tx ∈ b.rawTxs)
    (hordered : Follows (DependsOn entries)
      (fun u => ∃ b' ∈ st.txBuckets, u ∈ b'.rawTxs ∧ own.feeToWeight < b'.feeToWeight) own.rawTxs)
    (hratio : ∃ aggTx, Transaction.aggregate env own.rawTxs = .ok aggTx
      ∧ (aggTx.feeToWeight env.overflowChecks : Outcome PoolError UInt64) = .ok own.feeToWeight)
    (hsublist : own.rawTxs.Sublist (done ++ [tx]) ∧ own.rawTxs ≠ [])
    : (Pool.accept st tx txBuckets pos).Sound env entries (done ++ [tx]) rest := by
  have hahead {ratio : UInt64} {u : Transaction}
      (hu : ∃ b' ∈ st.txBuckets, u ∈ b'.rawTxs ∧ ratio < b'.feeToWeight)
      : ∃ b' ∈ txBuckets, u ∈ b'.rawTxs ∧ ratio < b'.feeToWeight := by
    obtain ⟨b, hb, hu, hlt⟩ := hu
    obtain ⟨i, hi⟩ := List.mem_iff_getElem?.mp hb
    obtain ⟨b', hb', hsub, hle, -⟩ := hgrow i b hi
    exact ⟨b', List.mem_of_getElem? hb', hsub u hu, UInt64.lt_of_lt_of_le hlt hle⟩
  constructor
  . intro e he
    rcases List.mem_append.mp he with he | he
    . obtain ⟨o, ho, rfl⟩ := List.mem_map.mp he
      exact hpos
    . obtain ⟨b, hb, hclosed⟩ := h.closed e he
      obtain ⟨b', hb', -, -, hkeep⟩ := hgrow e.2 b hb
      exact ⟨b', hb', hkeep hclosed⟩
  . intro u hu hspent o ho
    have hlookup : (Pool.accept st tx txBuckets pos).outputCommits.lookup o.commit
        = ((tx.body.outputs.map fun out => (out.commit, pos)).lookup o.commit).or
          (st.outputCommits.lookup o.commit) := List.lookup_append
    rw [hlookup]
    rcases List.mem_append.mp hu with hu | hu
    . obtain ⟨w, hw, hspends⟩ := hspent
      rcases h.found u hu ⟨w, List.mem_cons_of_mem _ hw, hspends⟩ o ho with hrejected | ⟨i, b, hi, hb, hmem⟩
      . exact .inl hrejected
      obtain ⟨b', hb', hsub, -⟩ := hgrow i b hb
      refine .inr ⟨i, b', ?_, hb', hsub u hmem⟩
      rw [lookup_outputs_of_ne, Option.none_or, hi]
      intro hin
      obtain ⟨o', ho', heq⟩ := List.mem_map.mp hin
      exact hfresh o' ho' u hu o ho heq
    . obtain rfl := List.mem_singleton.mp hu
      obtain ⟨b, hb, hin⟩ := htx hspent
      refine .inr ⟨pos, b, ?_, hb, hin⟩
      rw [lookup_outputs (List.mem_map_of_mem ho), Option.some_or]
  . intro b hb
    rcases hmem b hb with hb | rfl
    . exact (h.ordered b hb).mono fun u hu => hahead hu
    . exact hordered.mono fun u hu => hahead hu
  . intro b hb
    rcases hmem b hb with hb | rfl
    . exact h.ratio b hb
    . exact hratio
  . intro b hb
    rcases hmem b hb with hb | rfl
    . exact ⟨(h.sublist b hb).1.trans (List.sublist_append_left _ _), (h.sublist b hb).2⟩
    . exact hsublist

theorem fresh (hentries : entries = done ++ tx :: rest) (horderly : Orderly env weighting entries)
    : ∀ o ∈ tx.body.outputs, ∀ u ∈ done, ∀ o' ∈ u.body.outputs, o.commit ≠ o'.commit := by
  intro o ho u hu o' ho' heq
  have hnodup := horderly.nodup
  rw [hentries, List.flatMap_append, List.map_append, List.nodup_append', List.disjoint_left] at hnodup
  apply @hnodup.2.2 o'.commit
  . exact List.mem_map_of_mem (List.mem_flatMap.mpr ⟨u, hu, ho'⟩)
  . rw [← heq]
    exact List.mem_map_of_mem (List.mem_flatMap.mpr ⟨tx, List.mem_cons_self, ho⟩)

theorem lookup_dependsOn (h : st.Sound env entries done (tx :: rest)) (hentries : entries = done ++ tx :: rest)
    (horderly : Orderly env weighting entries) (hfree : ∀ i ∈ tx.body.inputs, i.commit ∉ st.rejected)
    (hv : DependsOn entries tx v)
    : ∃ i ∈ tx.body.inputs, ∃ pos b, st.outputCommits.lookup i.commit = some pos
        ∧ st.txBuckets[pos]? = some b ∧ v ∈ b.rawTxs := by
  have hdone := horderly.order done tx rest hentries v hv
  obtain ⟨-, -, hspends⟩ := hv
  obtain ⟨i, hi, o, ho, heq⟩ := id hspends
  refine ⟨i, hi, ?_⟩
  rw [heq]
  refine (h.found v hdone ⟨tx, List.mem_cons_self, hspends⟩ o ho).resolve_left ?_
  rw [← heq]
  exact hfree i hi

theorem mem_of_lookup (h : st.outputCommits.lookup c = some pos)
    : (c, pos) ∈ st.outputCommits := by
  obtain ⟨l₁, l₂, heq, -⟩ := List.lookup_eq_some_iff.mp h
  simp [heq]

theorem bucket_of_new (h : Bucket.new env.overflowChecks tx = .ok own)
    : own.rawTxs = [tx]
        ∧ (tx.feeToWeight env.overflowChecks : Outcome PoolError UInt64) = .ok own.feeToWeight := by
  unfold Bucket.new at h
  simp only [Outcome.bind_eq_ok, Outcome.pure_eq_ok, Outcome.ok.injEq] at h
  obtain ⟨ratio, hratio, rfl⟩ := h
  exact ⟨rfl, hratio⟩

theorem push (h : st.Sound env entries done (tx :: rest)) (hentries : entries = done ++ tx :: rest)
    (horderly : Orderly env weighting entries) {own : Bucket} (hown : Bucket.new env.overflowChecks tx = .ok own)
    (hpos : ∃ b, (st.txBuckets ++ [own])[pos]? = some b ∧ Closed entries b)
    (htx : (∃ w ∈ rest, w.Spends tx) → (st.txBuckets ++ [own])[pos]? = some own)
    (hahead : ∀ v, DependsOn entries tx v
      → ∃ b ∈ st.txBuckets, v ∈ b.rawTxs ∧ own.feeToWeight < b.feeToWeight)
    : (Pool.accept st tx (st.txBuckets ++ [own]) pos).Sound env entries (done ++ [tx]) rest := by
  obtain ⟨hraw, hratio⟩ := bucket_of_new hown
  apply h.accept own (fresh hentries horderly)
  . intro b hb
    simpa using hb
  . intro i b hi
    refine ⟨b, ?_, fun u hu => hu, UInt64.le_refl _, id⟩
    rw [List.getElem?_append_left (List.getElem?_eq_some_iff.mp hi).1, hi]
  . exact hpos
  . intro hspent
    exact ⟨own, htx hspent, by simp [hraw]⟩
  . rw [hraw]
    exact Follows.cons_iff.mpr ⟨hahead, Follows.nil⟩
  . rw [hraw]
    exact ⟨tx, rfl, hratio⟩
  . rw [hraw]
    exact ⟨List.sublist_append_right _ _, by simp⟩

theorem addToBucket (h : st.Sound env entries done (tx :: rest)) (hentries : entries = done ++ tx :: rest)
    (horderly : Orderly env weighting entries)
    (hapart : setsApart env weighting st tx = true → ∀ tx' ∈ rest, ¬ tx'.Spends tx)
    (hparent : findParent st tx.body.inputs = (some pos, false))
    (hadd : Pool.addToBucket env weighting st tx pos = .ok st')
    : st'.Sound env entries (done ++ [tx]) rest := by
  obtain ⟨hlookups, hfound⟩ := findParent_eq hparent
  obtain ⟨i, hi, hlookup⟩ := hfound.resolve_left (by simp)
  obtain ⟨bucket, hbucket, hclosed⟩ := h.closed _ (mem_of_lookup hlookup)
  have hmem := List.mem_of_getElem? hbucket
  -- there is one recorded input, so that everything the transaction depends on is in this bucket
  have hdeps : ∀ v, DependsOn entries tx v → v ∈ bucket.rawTxs := by
    intro v hv
    obtain ⟨j, hj, pos', b', hpos', hb', hin⟩ :=
      h.lookup_dependsOn hentries horderly (fun j hj => (hlookups j hj).1) hv
    rcases (hlookups j hj).2 with hnone | hsome
    . rw [hnone] at hpos'
      contradiction
    . rw [hsome, Option.some.injEq] at hpos'
      rw [← hpos', hbucket, Option.some.injEq] at hb'
      rwa [hb']
  obtain ⟨bucket', hbucket', hadd⟩ := Outcome.bind_eq_ok.mp hadd
  rw [Outcome.unwrap_eq_ok, hbucket, Option.some.injEq] at hbucket'
  subst hbucket'
  split at hadd
  . next newBucket hnew =>
    have hsets : newBucket.feeToWeight < bucket.feeToWeight → setsApart env weighting st tx = true := by
      intro hlt
      unfold setsApart
      rw [hparent]
      simp [hbucket, hnew, hlt]
    unfold Bucket.aggregateWithTx at hnew
    simp only [Outcome.bind_eq_ok, Outcome.mapErr_eq_ok, Outcome.pure_eq_ok, Outcome.ok.injEq] at hnew
    obtain ⟨aggTx, hagg, ⟨⟩, -, ratio, hratio, rfl⟩ := hnew
    obtain ⟨hsublist, hne⟩ := h.sublist bucket hmem
    split at hadd
    . next hle =>
      obtain rfl := Outcome.ok.inj hadd
      have hnewClosed : Closed entries ⟨bucket.rawTxs ++ [tx], ratio⟩ :=
        hclosed.concat fun v hv => .inr (hdeps v hv)
      have hlt := (List.getElem?_eq_some_iff.mp hbucket).1
      apply h.accept ⟨bucket.rawTxs ++ [tx], ratio⟩ (fresh hentries horderly)
      . intro b hb
        exact List.mem_or_eq_of_mem_set hb
      . intro j b hj
        rw [List.getElem?_set]
        split
        . next heq =>
          rw [← heq, hbucket, Option.some.injEq] at hj
          subst hj
          exact ⟨_, rfl, fun u hu => List.mem_append_left _ hu, hle, fun _ => hnewClosed⟩
        . exact ⟨b, hj, fun u hu => hu, UInt64.le_refl _, id⟩
      . exact ⟨_, by rw [List.getElem?_set, if_pos rfl, if_pos hlt], hnewClosed⟩
      . exact fun _ => ⟨_, by rw [List.getElem?_set, if_pos rfl, if_pos hlt], by simp⟩
      . exact hnewClosed.mono fun _ => False.elim
      . exact ⟨aggTx, hagg, hratio⟩
      . exact ⟨hsublist.append (.refl _), by simp⟩
    . next hlt =>
      obtain ⟨own, hown, hadd⟩ := Outcome.bind_eq_ok.mp hadd
      obtain rfl := Outcome.ok.inj hadd
      obtain ⟨others, hothers, hbucketRatio⟩ := h.ratio bucket hmem
      have hsub : (bucket.rawTxs ++ [tx]).Sublist entries := by
        rw [hentries, List.append_cons done]
        exact (hsublist.append (.refl _)).trans (List.sublist_append_left _ _)
      have hownRatio : own.feeToWeight < bucket.feeToWeight := by
        refine Transaction.feeToWeight_lt hothers hagg hne ?_ ?_ hbucketRatio hratio (bucket_of_new hown).2
          (UInt64.not_le.mp hlt)
        . have houtputs := (hsub.flatMap (·.body.outputs)).length_le
          have hkernels := (hsub.flatMap (·.body.kernels)).length_le
          have hsize := horderly.size
          omega
        . have hfees := (hsub.map (·.body.exactFee)).sum_le_sum fun _ _ => Nat.zero_le _
          exact Nat.lt_of_le_of_lt (Nat.mul_le_mul_right 1000 hfees) horderly.fees
      apply h.push hentries horderly hown
      . exact ⟨bucket, by rw [List.getElem?_append_left (List.getElem?_eq_some_iff.mp hbucket).1, hbucket],
          hclosed⟩
      . rintro ⟨w, hw, hspends⟩
        exact absurd hspends (hapart (hsets (UInt64.not_le.mp hlt)) w hw)
      . intro v hv
        exact ⟨bucket, hmem, hdeps v hv, hownRatio⟩
  . obtain rfl := Outcome.ok.inj hadd
    exact h.reject
  . contradiction
  . contradiction

theorem bucketTransaction (h : st.Sound env entries done (tx :: rest)) (hentries : entries = done ++ tx :: rest)
    (horderly : Orderly env weighting entries)
    (hapart : setsApart env weighting st tx = true → ∀ tx' ∈ rest, ¬ tx'.Spends tx)
    (hstep : Pool.bucketTransaction env weighting st tx = .ok st')
    : st'.Sound env entries (done ++ [tx]) rest := by
  unfold Pool.bucketTransaction at hstep
  split at hstep
  . next insertPos hparent =>
    obtain rfl := Outcome.ok.inj hstep
    exact h.reject
  . next hparent =>
    obtain ⟨own, hown, hstep⟩ := Outcome.bind_eq_ok.mp hstep
    obtain rfl := Outcome.ok.inj hstep
    obtain ⟨hlookups, -⟩ := findParent_eq hparent
    have hroot : ∀ v, ¬ DependsOn entries tx v := by
      intro v hv
      obtain ⟨i, hi, pos, b, hpos, -⟩ :=
        h.lookup_dependsOn hentries horderly (fun i hi => (hlookups i hi).1) hv
      have hnone := (hlookups i hi).2
      simp [hpos] at hnone
    have hlast : (st.txBuckets ++ [own])[st.txBuckets.length]? = some own := by simp
    apply h.push hentries horderly hown
    . refine ⟨own, hlast, ?_⟩
      rw [Closed, (bucket_of_new hown).1]
      exact Follows.cons_iff.mpr ⟨fun v hv => hroot v hv, Follows.nil⟩
    . exact fun _ => hlast
    . exact fun v hv => absurd hv (hroot v)
  . next pos hparent => exact h.addToBucket hentries horderly hapart hparent hstep

end Buckets.Sound

theorem dependencyOrder_bucketTransactions {pool : Pool} {txs : List Transaction}
    (horderly : Orderly env weighting pool.entries) (h : pool.bucketTransactions env weighting = .ok txs)
    : DependencyOrder pool.entries txs := by
  obtain ⟨st, hst, h⟩ := Outcome.bind_eq_ok.mp h
  obtain rfl := Outcome.ok.inj h
  obtain ⟨hsound, -⟩ : st.Sound env pool.entries pool.entries [] ∧ NoneOfApart env weighting st [] := by
    refine Outcome.foldlM_eq_ok (fun done (st : Buckets) => ∀ rest, pool.entries = done ++ rest
      → st.Sound env pool.entries done rest ∧ NoneOfApart env weighting st rest) ?_ ?_ hst []
      (List.append_nil _).symm
    . rintro rest rfl
      exact ⟨.empty, horderly.apart⟩
    . intro done tx st st' _ hdone hstep rest hentries
      rw [List.append_assoc, List.singleton_append] at hentries
      obtain ⟨hsound, hapart, hrest⟩ := hdone _ hentries
      rw [hstep] at hrest
      exact ⟨hsound.bucketTransaction hentries horderly hapart hstep, hrest⟩
  rw [dependencyOrder_iff]
  -- the buckets are sorted by their ratios, and what a bucket depends on has a higher one
  have htotal : Std.Total fun a b : Bucket => b.feeToWeight ≤ a.feeToWeight :=
    ⟨fun a b => UInt64.le_total _ _⟩
  have htrans : IsTrans Bucket fun a b => b.feeToWeight ≤ a.feeToWeight :=
    ⟨fun a b c hab hbc => UInt64.le_trans hbc hab⟩
  apply Follows.flatMap (List.pairwise_insertionSort _ st.txBuckets) (fun b => UInt64.le_refl _)
  intro b hb
  rw [List.mem_insertionSort] at hb
  apply (hsound.ordered b hb).mono
  rintro v ⟨b', hb', hv, hlt⟩
  exact .inr ⟨b', (List.mem_insertionSort _).mpr hb', hv, UInt64.not_le.mpr hlt⟩

end

namespace Sample

def env : Env := Transparent.env .mainnet

def chain : BlockChain where
  verifyCoinbaseMaturity _ := .ok ()
  verifyTxLockHeight _ := .ok ()
  validateTx _ := .ok ()
  chainHead := .ok Genesis.genesisMain.header
  getBlockSums _ := .ok ⟨commitToZeroValue, commitToZeroValue⟩

def spend (value blind : ℤ) (fee : UInt64) : Transaction :=
  ⟨.zero, ⟨[⟨.plain, Transparent.encode (value, blind)⟩],
    [⟨.plain, Transparent.encode (value - fee.toNat, blind + 1), .zero⟩],
    [⟨.plain, fee, 0, Transparent.encode (0, 1), .replicate 64 0⟩]⟩⟩

-- each one spends the output of the one before
def first : Transaction := spend 100 1 8
def second : Transaction := spend 92 2 1
def third : Transaction := spend 91 3 20

def unrelated : Transaction := spend 50 1 4

-- a chain with rising ratios
def rising : List Transaction := [spend 60 1 4, spend 56 2 8, spend 48 3 20]

end Sample

-- The second transaction is set apart, but not spent. The chain stays in one bucket.
open Sample in
theorem dependencyOrder_rising
    : bucketTransactions env ⟨[first, second, unrelated] ++ rising, chain⟩ .noLimit
          = .ok (rising ++ [first, unrelated, second])
        ∧
      DependencyOrder ([first, second, unrelated] ++ rising) (rising ++ [first, unrelated, second]) := by
  have hbuckets : bucketTransactions env ⟨[first, second, unrelated] ++ rising, chain⟩ .noLimit
      = .ok (rising ++ [first, unrelated, second]) := by
    decide +kernel
  refine ⟨hbuckets, dependencyOrder_bucketTransactions ⟨?_, ?_, ?_, ?_, ?_⟩ hbuckets⟩
  . simp only [rising, List.cons_append, List.nil_append, dependencyOrder_iff, Follows.cons_iff, Follows.nil,
      DependsOn, and_imp]
    decide +kernel
  . decide +kernel
  . decide
  . decide
  . decide

theorem bucketTransactions_out_of_order
    : bucketTransactions Sample.env ⟨[Sample.first, Sample.second, Sample.third], Sample.chain⟩ .noLimit
          = .ok [Sample.first, Sample.third, Sample.second]
        ∧
      ¬ DependencyOrder [Sample.first, Sample.second, Sample.third]
        [Sample.first, Sample.third, Sample.second] := by
  refine ⟨by decide +kernel, fun h => ?_⟩
  have hmem := h [Sample.first] Sample.third [Sample.second] rfl Sample.second
    ⟨by simp, by decide, by decide⟩
  revert hmem
  decide

end Pool

end Epic
