import Epic.Chain.TxHashSet.Index
import Epic.Chain.TxHashSet.Validate

/-!
This module contains the outputs of a branch that no block of it spends: the leaf set of the output
mountain range keeps to them while blocks are taken in and rewound.
-/

namespace Epic

open Routine Pmmr

def spentOf (branch : List Block) : List Commitment :=
  branch.flatMap fun b => b.body.inputs.map (·.commit)

def unspentOf (branch : List Block) : List Output :=
  (outputsOf branch).filter fun o => o.commit ∉ spentOf branch

theorem spentOf_concat (branch : List Block) (b : Block)
    : spentOf (branch ++ [b]) = spentOf branch ++ b.body.inputs.map (·.commit) := by
  simp [spentOf]

theorem spentOf_take_append (branch : List Block) (n : Nat)
    : spentOf (branch.take n) ++ spentOf (branch.drop n) = spentOf branch := by
  unfold spentOf
  rw [← List.flatMap_append, List.take_append_drop]

-- no output is spent twice or before it is created
structure SpendsOnce (branch : List Block) : Prop where
  nodup : (spentOf branch).Nodup
  created : ∀ n b, branch[n]? = some b →
    ∀ x ∈ b.body.inputs, x.commit ∈ commitsOf (branch.take (n + 1))

namespace SpendsOnce

variable {branch : List Block}

theorem nil
    : SpendsOnce [] := ⟨List.nodup_nil, by simp⟩

theorem take (h : SpendsOnce branch) (n : Nat)
    : SpendsOnce (branch.take n) := by
  refine ⟨?_, ?_⟩
  . have hnodup := h.nodup
    rw [← spentOf_take_append branch n, List.nodup_append] at hnodup
    exact hnodup.1
  . intro i b hb x hx
    rw [List.getElem?_take] at hb
    split at hb
    . rw [List.take_take, Nat.min_eq_left (by omega)]
      exact h.created i b hb x hx
    . contradiction

theorem concat (h : SpendsOnce branch) (hnodup : (spentOf (branch ++ [b])).Nodup)
    (hb : ∀ x ∈ b.body.inputs, x.commit ∈ commitsOf (branch ++ [b]))
    : SpendsOnce (branch ++ [b]) := by
  refine ⟨hnodup, ?_⟩
  intro i b' hb' x hx
  rcases Nat.lt_trichotomy i branch.length with hlt | heq | hgt
  . rw [List.getElem?_append_left hlt] at hb'
    rw [List.take_append_of_le_length (by omega)]
    exact h.created i b' hb' x hx
  . rw [heq, List.getElem?_concat_length, Option.some.injEq] at hb'
    subst hb'
    rw [List.take_of_length_le (by simp; omega)]
    exact hb x hx
  . rw [List.getElem?_eq_none (by simp; omega)] at hb'
    contradiction

theorem mem_commitsOf (h : SpendsOnce branch) (hmem : commit ∈ spentOf branch)
    : commit ∈ commitsOf branch := by
  unfold spentOf at hmem
  simp only [List.mem_flatMap, List.mem_map] at hmem
  obtain ⟨b, hb, x, hx, rfl⟩ := hmem
  obtain ⟨n, hn⟩ := List.getElem?_of_mem hb
  exact (commitsOf_mono (List.take_prefix _ _)).subset (h.created n b hn x hx)

end SpendsOnce

/-!
The leaf set of a branch. Rewinding can leave positions in it that are past the end, nothing is said
about them.
-/

structure PMMR.Unspent (branch : List Block) (p : PMMR OutputIdentifier) : Prop where
  once : SpendsOnce branch
  leafSet : ∀ n commit, (commitsOf branch)[n]? = some commit →
    (leafPos n ∈ p.backend.leafSet.bitmap ↔ commit ∉ spentOf branch)

theorem PMMR.Unspent.new (p : PMMR OutputIdentifier)
    : p.Unspent [] := ⟨.nil, by simp [commitsOf, outputsOf]⟩

theorem PMMR.Unspent.sync {p : PMMR OutputIdentifier} (h : p.Unspent branch)
    : p.sync.Unspent branch := by
  refine ⟨h.once, ?_⟩
  rw [PMMR.bitmap_sync]
  exact h.leafSet

namespace Extension

variable {env : Env} {branch : List Block} {ext ext' : Extension} {b : Block} {u : Unit}

structure UnspentOutputs (env : Env) (spent : List Commitment) (outputs : List Output) (ext : Extension)
    : Prop where
  holds : ext.outputPmmr.Holds (PMMR.leavesOf env outputs)
  prunable : ext.outputPmmr.backend.prunable = true
  leafSet : ∀ n commit, (outputs.map (·.commit))[n]? = some commit →
    (leafPos n ∈ ext.outputPmmr.backend.leafSet.bitmap ↔ commit ∉ spent)

theorem UnspentOutputs.create
    (h : UnspentOutputs env spent outputs ext) (hcreates : Creates env out ext ext')
    (hfresh : out.commit ∉ spent)
    : UnspentOutputs env spent (outputs ++ [out]) ext' := by
  obtain ⟨pos, hpush, -⟩ := hcreates.pushed
  obtain ⟨-, hpushed, hholds⟩ := h.holds.push_leavesOf hpush
  refine ⟨hholds, hpushed.prunable.trans h.prunable, fun n commit hn => ?_⟩
  have hbitmap : ext'.outputPmmr.backend.leafSet.bitmap
      = insert (leafPos outputs.length) ext.outputPmmr.backend.leafSet.bitmap := by
    rw [hpushed.leafSet, if_pos h.prunable, PMMR.length_leavesOf]
    rfl
  rw [hbitmap, Finset.mem_insert]
  rw [List.map_append, List.map_singleton] at hn
  rcases Nat.lt_or_ge n outputs.length with hlt | hge
  . rw [List.getElem?_append_left (by simpa using hlt)] at hn
    have hne : leafPos n ≠ leafPos outputs.length := by
      intro heq
      have := leafPos_injective heq
      omega
    rw [← h.leafSet n commit hn]
    exact or_iff_right hne
  . have hn' : n = (outputs.map (·.commit)).length := by
      obtain ⟨hlt, -⟩ := List.getElem?_eq_some_iff.mp hn
      simp at hlt ⊢
      omega
    rw [hn', List.getElem?_concat_length, Option.some.injEq] at hn
    rw [hn', List.length_map, ← hn]
    exact ⟨fun _ => hfresh, fun _ => .inl rfl⟩

theorem UnspentOutputs.spend {spent : List Commitment} {outputs : List Output} {x : Input}
    (h : UnspentOutputs env spent outputs ext) (hspends : Spends env x ext ext')
    (hnodup : (outputs.map (·.commit)).Nodup) (hindex : ext.batch.Indexes (outputs.map (·.commit)))
    (hx : x.commit ∈ outputs.map (·.commit))
    : x.commit ∉ spent ∧ UnspentOutputs env (spent ++ [x.commit]) outputs ext' := by
  obtain ⟨pos, hpos, -, hprune⟩ := hspends.pruned
  obtain ⟨n, hn⟩ := List.getElem?_of_mem hx
  rw [hindex n _ hn, Option.some.injEq] at hpos
  subst hpos
  obtain ⟨m, hm, hpruned⟩ := h.holds.prune hprune
  have hm := leafPos_injective hm
  subst hm
  refine ⟨(h.leafSet n _ hn).mp hpruned.unspent, hpruned.holds h.holds, ?_, fun i commit hi => ?_⟩
  . rw [hpruned.state]
    exact h.prunable
  have hbitmap : ext'.outputPmmr.backend.leafSet.bitmap
      = ext.outputPmmr.backend.leafSet.bitmap.erase (leafPos n) := by
    rw [hpruned.state]
    rfl
  have hsame : leafPos i = leafPos n ↔ commit = x.commit := by
    constructor
    . intro heq
      rw [leafPos_injective heq, hn, Option.some.injEq] at hi
      exact hi.symm
    . rintro rfl
      obtain ⟨hlt, hi⟩ := List.getElem?_eq_some_iff.mp hi
      obtain ⟨hlt', hn⟩ := List.getElem?_eq_some_iff.mp hn
      rw [hnodup.getElem_inj_iff.mp (hi.trans hn.symm)]
  rw [hbitmap, Finset.mem_erase, h.leafSet i commit hi, List.mem_append, List.mem_singleton, not_or,
    and_comm, ne_eq, hsame]

theorem unspent_applyBlock (hholds : ext.Holds env branch) (h : ext.outputPmmr.Unspent branch)
    (hindex : ext.batch.Indexes (commitsOf branch)) (hnodup : (commitsOf (branch ++ [b])).Nodup)
    (hspent : ∀ x ∈ b.body.inputs, x.commit ∈ commitsOf (branch ++ [b]))
    (happly : applyBlock env b ext = (.ok u, ext'))
    : ext'.outputPmmr.Unspent (branch ++ [b]) := by
  have hindex' := indexes_applyBlock hholds hindex hnodup happly
  obtain ⟨mid, happlies⟩ := applies_applyBlock happly
  obtain ⟨pos, p, -, houtputs⟩ := happlies.outputs
  obtain ⟨last, hinputs, hkeeps⟩ := happlies.inputs
  have hcommits : commitsOf (branch ++ [b]) = (outputsOf branch ++ b.body.outputs).map (·.commit) := by
    rw [commitsOf, outputsOf_concat]
  have hmid : UnspentOutputs env (spentOf branch) (outputsOf branch ++ b.body.outputs) mid := by
    apply forEach_eq_ok
      (fun done => UnspentOutputs env (spentOf branch) (outputsOf branch ++ done)) _ _ houtputs
    . rw [List.append_nil]
      exact ⟨hholds.output, hholds.outputPruned, h.leafSet⟩
    . intro done out ext₁ ext₂ hmem hdone hout
      rw [← List.append_assoc]
      apply hdone.create (creates_applyAndIndexOutput hout)
      intro hspent
      rw [commitsOf_concat, List.nodup_append] at hnodup
      exact hnodup.2.2 _ (h.once.mem_commitsOf hspent) _ (List.mem_map_of_mem hmem) rfl
  have hbatch : ext'.batch = mid.batch := by
    rw [hkeeps.batch]
    apply forEach_eq_ok (fun _ ext₁ => ext₁.batch = mid.batch) rfl _ hinputs
    intro _ input ext₁ ext₂ _ hbatch hinput
    exact (spends_applyInput hinput).batch.trans hbatch
  -- over the inputs that are done, the index is the one after the block
  have hlast : last.batch = mid.batch
      ∧ (spentOf branch ++ b.body.inputs.map (·.commit)).Nodup
      ∧ UnspentOutputs env (spentOf branch ++ b.body.inputs.map (·.commit))
        (outputsOf branch ++ b.body.outputs) last := by
    apply forEach_eq_ok (fun done ext₁ => ext₁.batch = mid.batch
      ∧ (spentOf branch ++ done.map (·.commit)).Nodup
      ∧ UnspentOutputs env (spentOf branch ++ done.map (·.commit))
        (outputsOf branch ++ b.body.outputs) ext₁) _ _ hinputs
    . rw [List.map_nil, List.append_nil]
      exact ⟨rfl, h.once.nodup, hmid⟩
    . rintro done x ext₁ ext₂ hx ⟨hsame, honce, hunspent⟩ hinput
      have hspends := spends_applyInput hinput
      have hcreated := hspent x hx
      rw [hcommits] at hindex' hnodup hcreated
      rw [hbatch, ← hsame] at hindex'
      obtain ⟨hnew, hnext⟩ := hunspent.spend hspends hnodup hindex' hcreated
      rw [List.map_append, List.map_singleton, ← List.append_assoc]
      refine ⟨hspends.batch.trans hsame, ?_, hnext⟩
      rw [List.nodup_append]
      refine ⟨honce, List.nodup_singleton _, ?_⟩
      rintro commit hmem _ hx rfl
      rw [List.mem_singleton.mp hx] at hmem
      exact hnew hmem
  obtain ⟨-, honce, hunspent⟩ := hlast
  rw [← spentOf_concat] at honce hunspent
  refine ⟨h.once.concat honce hspent, ?_⟩
  rw [hkeeps.outputPmmr, hcommits]
  exact hunspent.leafSet

end Extension

theorem PMMR.stable_prunable (prunable : Bool)
    : Stable fun p : PMMR E => p.backend.prunable = prunable where
  push env elmt p hp := by
    rcases push_eq env elmt p with hsame | ⟨pos, hashes, -, happended⟩
    . rw [hsame]
      exact hp
    . rw [happended]
      exact hp
  prune position p hp := by
    rcases prune_eq position p with hsame | ⟨-, hremoved⟩
    . rw [hsame]
      exact hp
    . rw [hremoved]
      exact hp

theorem Extension.kernelKept_applyBlock
    (h : ext.kernelPmmr.backend.prunable = false) (happly : applyBlock env b ext = (.ok u, ext'))
    : ext'.kernelPmmr.backend.prunable = false := by
  have htrue {E : Type} : PMMR.Stable (fun _ : PMMR E => True) :=
    ⟨fun _ _ _ _ => trivial, fun _ _ _ => trivial⟩
  have hstable : Stable (fun _ => True) (fun _ => True) (fun _ => True)
      (fun p => p.backend.prunable = false) (fun _ => True) :=
    ⟨htrue, htrue, htrue, PMMR.stable_prunable false, fun _ _ _ _ => trivial, fun _ _ _ _ => trivial⟩
  have hkept := hstable.preserves_applyBlock env b ext ⟨trivial, trivial, trivial, h, trivial⟩
  rw [happly] at hkept
  exact hkept.kernelPmmr

theorem PMMR.bitmap_rewind {E : Type} {p : PMMR E} (hprunable : p.backend.prunable = true)
    (position : Nat) (rewindRmPos : Bitmap)
    : (p.rewind position rewindRmPos).backend.leafSet.bitmap
        = p.backend.leafSet.rewound (lastParent (position + 1) position) rewindRmPos := by
  simp [PMMR.rewind, PMMRBackend.rewind, hprunable, LeafSet.rewind]

theorem PMMR.Unspent.rewind {p : PMMR OutputIdentifier} (h : p.Unspent branch) (hprunable : p.backend.prunable = true)
    (hposition : lastParent (position + 1) position = mmrSize (outputsOf (branch.take i)).length)
    (hrm : ∀ n commit, (commitsOf (branch.take i))[n]? = some commit →
      (leafPos n ∈ rewindRmPos ↔ commit ∈ spentOf (branch.drop i)))
    : (p.rewind position rewindRmPos).Unspent (branch.take i) := by
  refine ⟨h.once.take i, fun n commit hn => ?_⟩
  obtain ⟨hlt, -⟩ := List.getElem?_eq_some_iff.mp hn
  have hbitmap : (p.rewind position rewindRmPos).backend.leafSet.bitmap
      = p.backend.leafSet.rewound (mmrSize (outputsOf (branch.take i)).length) rewindRmPos := by
    rw [bitmap_rewind hprunable, hposition]
  have hle : leafPos n ≤ mmrSize (outputsOf (branch.take i)).length := by
    rw [leafPos_le_mmrSize_iff]
    simpa [commitsOf] using hlt
  have hwhole : (commitsOf branch)[n]? = some commit := by
    obtain ⟨rest, hrest⟩ := commitsOf_mono (List.take_prefix i branch)
    rw [← hrest, List.getElem?_append_left hlt]
    exact hn
  have hnodup := h.once.nodup
  rw [← spentOf_take_append branch i, List.nodup_append] at hnodup
  rw [hbitmap, LeafSet.mem_rewound, h.leafSet n commit hwhole, hrm n commit hn,
    ← spentOf_take_append branch i, List.mem_append, not_or]
  constructor
  . rintro (⟨⟨hnot, -⟩, -⟩ | hlater)
    . exact hnot
    . exact fun hmem => hnodup.2.2 _ hmem _ hlater rfl
  . intro hnot
    by_cases hlater : commit ∈ spentOf (branch.drop i)
    . exact .inr hlater
    . exact .inl ⟨⟨hnot, hlater⟩, hle⟩

theorem filterMap_eq_of_sorted {β : Type} {f : Nat → Option β} {l k : List Nat}
    (hl : l.Pairwise (· < ·)) (hk : k.Pairwise (· < ·))
    (h : ∀ pos, (f pos).isSome = true → (pos ∈ l ↔ pos ∈ k))
    : l.filterMap f = k.filterMap f := by
  have hfound (m : List Nat) : m.filterMap f = (m.filter fun pos => (f pos).isSome).filterMap f := by
    rw [List.filterMap_filter]
    apply List.filterMap_congr
    intro pos _
    cases f pos <;> rfl
  have hsame : (l.filter fun pos => (f pos).isSome) = k.filter fun pos => (f pos).isSome := by
    apply (hl.filter _).eq_of_mem_iff (hk.filter _)
    intro pos
    simp only [List.mem_filter]
    exact and_congr_left (h pos)
  rw [hfound l, hfound k, hsame]

theorem filterMap_range_getElem? {β : Type} (l : List β)
    : (List.range l.length).filterMap (l[·]?) = l := by
  induction l using List.reverseRecOn with
  | nil => rfl
  | append_singleton l x ih =>
    rw [List.length_append, List.length_singleton, List.range_succ, List.filterMap_append]
    congr 1
    . conv => rhs; rw [← ih]
      apply List.filterMap_congr
      intro n hn
      exact List.getElem?_append_left (List.mem_range.mp hn)
    . simp

theorem PMMR.Holds.exists_of_getData {E : Type} {p : PMMR E} {leaves : List (E × Hash)} {pos : Nat}
    {x : E} (h : p.Holds leaves) (hdata : p.getData pos = some x)
    : ∃ n < leaves.length, pos = leafPos n := by
  have hleaf : isLeaf pos = true := by
    by_contra hnot
    unfold PMMR.getData PMMRBackend.getData at hdata
    simp [hnot] at hdata
  have hpos : 0 < pos := by
    by_contra hzero
    obtain rfl : pos = 0 := by omega
    have hnone : nLeaves 0 = 0 := nLeaves_mmrSize 0
    unfold PMMR.getData PMMRBackend.getData PMMRBackend.getDataFromFile AppendOnlyFile.read at hdata
    simp [hnone] at hdata
  obtain ⟨n, rfl⟩ := exists_eq_leafPos hpos hleaf
  refine ⟨n, ?_, rfl⟩
  rw [h.getData] at hdata
  split at hdata
  . rw [Option.map_eq_some_iff] at hdata
    obtain ⟨leaf, hleaf, -⟩ := hdata
    exact (List.getElem?_eq_some_iff.mp hleaf).1
  . contradiction

theorem PMMR.Holds.filterMap_getData {E β : Type} {p : PMMR E} {leaves : List (E × Hash)}
    {positions : List Nat} (h : p.Holds leaves) (hsorted : positions.Pairwise (· < ·))
    (hall : ∀ n < leaves.length, p.has (leafPos n) = true → leafPos n ∈ positions) (f : E → β)
    : positions.filterMap (fun pos => (p.getData pos).map f)
        =
      (List.range leaves.length).filterMap fun n =>
        if p.has (leafPos n) then leaves[n]?.map fun leaf => f leaf.1 else none := by
  have hleaves : ((List.range leaves.length).map leafPos).Pairwise (· < ·) := by
    rw [List.pairwise_map]
    exact List.pairwise_lt_range.imp leafPos_lt_leafPos
  rw [filterMap_eq_of_sorted hsorted hleaves, List.filterMap_map]
  . apply List.filterMap_congr
    intro n _
    rw [Function.comp_apply, h.getData]
    split
    . rw [Option.map_map]
      rfl
    . rfl
  . intro pos hsome
    rw [Option.isSome_map, Option.isSome_iff_exists] at hsome
    obtain ⟨x, hx⟩ := hsome
    obtain ⟨n, hn, rfl⟩ := h.exists_of_getData hx
    have hhas : p.has (leafPos n) = true := by
      by_contra hnot
      rw [h.getData, if_neg hnot] at hx
      contradiction
    exact ⟨fun _ => List.mem_map_of_mem (List.mem_range.mpr hn), fun _ => hall n hn hhas⟩

namespace Extension

variable {env : Env} {branch : List Block} {ext : Extension}

theorem outputsCommitted_eq (hholds : ext.Holds env branch) (h : ext.outputPmmr.Unspent branch)
    : ext.committed.outputsCommitted = (unspentOf branch).map (·.commit) := by
  have hhas (n : Nat) : ext.outputPmmr.has (leafPos n) = true
      ↔ leafPos n ∈ ext.outputPmmr.backend.leafSet.bitmap := by
    simp [PMMR.has, hholds.outputPruned, LeafSet.includes]
  have hsorted : ext.outputPmmr.leafPosIter.Pairwise (· < ·) := List.pairwise_lt_range.filter _
  have hall : ∀ n < (PMMR.leavesOf env (outputsOf branch)).length,
      ext.outputPmmr.has (leafPos n) = true → leafPos n ∈ ext.outputPmmr.leafPosIter := by
    intro n _ hn
    have hmem := (hhas n).mp hn
    simp only [PMMR.leafPosIter, Bitmap.iter, List.mem_filter, List.mem_range, decide_eq_true_eq]
    exact ⟨Nat.lt_succ_of_le (Finset.le_sup (f := id) hmem), hmem⟩
  have hcommits : (unspentOf branch).map (·.commit)
      = (commitsOf branch).filter (· ∉ spentOf branch) := by
    rw [commitsOf, List.filter_map]
    rfl
  unfold committed
  dsimp only
  rw [hholds.output.filterMap_getData hsorted hall, hcommits, PMMR.length_leavesOf]
  conv => rhs; rw [← filterMap_range_getElem? (commitsOf branch), List.filter_filterMap]
  rw [show (commitsOf branch).length = (outputsOf branch).length by simp [commitsOf]]
  apply List.filterMap_congr
  intro n hn
  obtain ⟨o, ho⟩ : ∃ o, (outputsOf branch)[n]? = some o :=
    ⟨_, List.getElem?_eq_getElem (List.mem_range.mp hn)⟩
  have hcommit : (commitsOf branch)[n]? = some o.commit := by
    rw [commitsOf, List.getElem?_map, ho]
    rfl
  have hiff := (hhas n).trans (h.leafSet n _ hcommit)
  rw [PMMR.getElem?_leavesOf, ho, hcommit]
  by_cases hspent : o.commit ∈ spentOf branch
  . rw [if_neg (fun hin => hiff.mp hin hspent), Option.filter_some_neg (by simpa using hspent)]
  . rw [if_pos (hiff.mpr hspent), Option.filter_some_pos (by simpa using hspent)]
    rfl

theorem kernelsCommitted_eq (hholds : ext.Holds env branch)
    (hkept : ext.kernelPmmr.backend.prunable = false)
    : ext.committed.kernelsCommitted = (kernelsOf branch).map (·.excess) := by
  have hhas (n : Nat) : ext.kernelPmmr.has (leafPos n) = true := by
    simp [PMMR.has, hkept]
  have hsorted : ext.kernelPmmr.leafPositions.Pairwise (· < ·) := by
    apply List.Pairwise.filter
    exact List.pairwise_lt_range'
  have hall : ∀ n < (PMMR.leavesOf env (kernelsOf branch)).length,
      ext.kernelPmmr.has (leafPos n) = true → leafPos n ∈ ext.kernelPmmr.leafPositions := by
    intro n hn _
    have hle := leafPos_le_mmrSize_iff.mpr hn
    rw [← hholds.kernel.lastPos] at hle
    unfold PMMR.leafPositions
    rw [List.mem_filter, List.mem_range'_1]
    exact ⟨⟨by unfold leafPos; omega, by omega⟩, isLeaf_leafPos n⟩
  unfold committed
  dsimp only
  rw [hholds.kernel.filterMap_getData hsorted hall, PMMR.length_leavesOf]
  conv => rhs; rw [← filterMap_range_getElem? (kernelsOf branch), List.map_filterMap]
  apply List.filterMap_congr
  intro n _
  rw [if_pos (hhas n), PMMR.getElem?_leavesOf, Option.map_map]
  rfl

end Extension

end Epic
