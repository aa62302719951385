import Epic.Chain.TxHashSet.Trees

/-!
This module contains the positions of the outputs of a branch: what the index of the store says about
them while blocks are taken in, and which of them the blocks after a block spend.
-/

namespace Epic

open Routine Pmmr

def commitsOf (branch : List Block) : List Commitment := (outputsOf branch).map (·.commit)

theorem commitsOf_concat (branch : List Block) (b : Block)
    : commitsOf (branch ++ [b]) = commitsOf branch ++ b.body.outputs.map (·.commit) := by
  simp [commitsOf, outputsOf_concat]

theorem commitsOf_mono (h : branch <+: q)
    : commitsOf branch <+: commitsOf q := by
  obtain ⟨rest, rfl⟩ := h
  simp [commitsOf, outputsOf]

theorem getElem?_commitsOf_mono {branch q : List Block} {n : Nat} {commit : Commitment}
    (h : branch <+: q) (hn : (commitsOf branch)[n]? = some commit)
    : (commitsOf q)[n]? = some commit := by
  obtain ⟨rest, hrest⟩ := commitsOf_mono h
  rw [← hrest, List.getElem?_append_left (List.getElem?_eq_some_iff.mp hn).1]
  exact hn

def lastIndexOf (commits : List Commitment) (commit : Commitment) : Option Nat :=
  (List.range commits.length).reverse.find? fun n => decide (commits[n]? = some commit)

theorem getElem?_lastIndexOf
    (h : lastIndexOf commits commit = some n)
    : commits[n]? = some commit := by
  have := List.find?_some h
  simpa using this

theorem lastIndexOf_eq_some (hnodup : commits.Nodup)
    : lastIndexOf commits commit = some n ↔ commits[n]? = some commit := by
  refine ⟨getElem?_lastIndexOf, fun hn => ?_⟩
  obtain ⟨hlt, hget⟩ := List.getElem?_eq_some_iff.mp hn
  cases hfind : lastIndexOf commits commit with
  | some m =>
    obtain ⟨hlt', hget'⟩ := List.getElem?_eq_some_iff.mp (getElem?_lastIndexOf hfind)
    congr 1
    apply hnodup.getElem_inj_iff.mp
    rw [hget', hget]
  | none =>
    have hnone := List.find?_eq_none.mp hfind n (by simpa using hlt)
    simp [hn] at hnone

-- the positions that the inputs of a block spend, on a branch with the given commitments up to it
def spentPositions (commits : List Commitment) (b : Block) : Bitmap :=
  (b.body.inputs.filterMap fun x => (lastIndexOf commits x.commit).map leafPos).toFinset

theorem mem_spentPositions (hnodup : commits.Nodup)
    : leafPos n ∈ spentPositions commits b ↔ ∃ x ∈ b.body.inputs, commits[n]? = some x.commit := by
  simp only [spentPositions, List.mem_toFinset, List.mem_filterMap, Option.map_eq_some_iff]
  constructor
  . rintro ⟨x, hx, m, hm, heq⟩
    rw [leafPos_injective heq, lastIndexOf_eq_some hnodup] at hm
    exact ⟨x, hx, hm⟩
  . rintro ⟨x, hx, hn⟩
    exact ⟨x, hx, n, (lastIndexOf_eq_some hnodup).mpr hn, rfl⟩

theorem exists_of_mem_spentPositions
    (h : pos ∈ spentPositions commits b)
    : ∃ n, pos = leafPos n := by
  simp only [spentPositions, List.mem_toFinset, List.mem_filterMap, Option.map_eq_some_iff] at h
  obtain ⟨x, -, n, -, rfl⟩ := h
  exact ⟨n, rfl⟩

def Batch.Indexes (batch : Batch) (commits : List Commitment) : Prop :=
  ∀ n commit, commits[n]? = some commit → batch.getOutputPos commit = some (leafPos n)

namespace Batch.Indexes

variable {batch : Batch} {commits : List Commitment}

theorem of_prefix (h : batch.Indexes commits)
    (hinitial : commits' <+: commits)
    : batch.Indexes commits' := by
  intro n commit hn
  obtain ⟨rest, rfl⟩ := hinitial
  apply h
  rw [List.getElem?_append_left (List.getElem?_eq_some_iff.mp hn).1]
  exact hn

theorem save (h : batch.Indexes commits) (hfresh : commit ∉ commits)
    : (batch.saveOutputPos commit (leafPos commits.length)).Indexes (commits ++ [commit]) := by
  intro n other hn
  unfold Batch.getOutputPos Batch.saveOutputPos
  dsimp only
  rcases Nat.lt_trichotomy n commits.length with hlt | heq | hgt
  . rw [List.getElem?_append_left hlt] at hn
    have hne : other ≠ commit := by
      rintro rfl
      exact hfresh (List.mem_of_getElem? hn)
    rw [AList.lookup_insert_ne hne]
    exact h n other hn
  . rw [heq, List.getElem?_concat_length, Option.some.injEq] at hn
    rw [heq, ← hn, AList.lookup_insert]
  . rw [List.getElem?_eq_none (by simp; omega)] at hn
    contradiction

end Batch.Indexes

-- the index finds the inputs of a block where they are, and the positions fit into 32 bits
theorem Batch.buildBlockInputBitmap_eq (batch : Batch) (hnodup : commits.Nodup)
    (hnarrow : mmrSize commits.length < 2 ^ 32)
    (hinputs : ∀ x ∈ b.body.inputs, ∃ n : Nat,
      commits[n]? = some x.commit ∧ batch.getOutputPos x.commit = some (leafPos n))
    : batch.buildBlockInputBitmap b = spentPositions commits b := by
  unfold Batch.buildBlockInputBitmap spentPositions
  rw [List.map_filterMap]
  congr 1
  apply List.filterMap_congr
  intro x hx
  obtain ⟨n, hn, hpos⟩ := hinputs x hx
  have hle := leafPos_le_mmrSize_iff.mpr (List.getElem?_eq_some_iff.mp hn).1
  rw [hpos, (lastIndexOf_eq_some hnodup).mpr hn, Option.map_some, Option.map_some, Nat.mod_eq_of_lt (by omega)]

namespace Extension

variable {env : Env} {branch : List Block} {ext ext' : Extension} {b : Block} {u : Unit}

theorem Creates.indexes {out : Output} {outputs : List Output} (hcreates : Creates env out ext ext')
    (hholds : ext.outputPmmr.Holds (PMMR.leavesOf env outputs))
    (h : ext.batch.Indexes (outputs.map (·.commit)))
    (hfresh : out.commit ∉ outputs.map (·.commit))
    : ext'.batch.Indexes ((outputs ++ [out]).map (·.commit)) := by
  obtain ⟨pos, hpush, hbatch⟩ := hcreates.pushed
  obtain ⟨rfl, -, -⟩ := hholds.push_leavesOf hpush
  have hsaved := h.save hfresh
  rw [List.length_map] at hsaved
  rw [hbatch, List.map_append]
  exact hsaved

theorem indexes_applyBlock (hholds : ext.Holds env branch)
    (h : ext.batch.Indexes (commitsOf branch)) (hnodup : (commitsOf (branch ++ [b])).Nodup)
    (happly : applyBlock env b ext = (.ok u, ext'))
    : ext'.batch.Indexes (commitsOf (branch ++ [b])) := by
  obtain ⟨mid, happlies⟩ := applies_applyBlock happly
  obtain ⟨pos, p, -, houtputs⟩ := happlies.outputs
  obtain ⟨last, hinputs, hkeeps⟩ := happlies.inputs
  have hmid : b.body.outputs <+: b.body.outputs
      → HoldsOutputs env (outputsOf branch ++ b.body.outputs) p ext.kernelPmmr mid
        ∧ mid.batch.Indexes ((outputsOf branch ++ b.body.outputs).map (·.commit)) := by
    apply forEach_eq_ok (fun done ext₁ => done <+: b.body.outputs
      → HoldsOutputs env (outputsOf branch ++ done) p ext.kernelPmmr ext₁
        ∧ ext₁.batch.Indexes ((outputsOf branch ++ done).map (·.commit))) _ _ houtputs
    . intro _
      rw [List.append_nil]
      exact ⟨⟨hholds.output, hholds.rproof, hholds.outputPruned, rfl, rfl⟩, h⟩
    . intro done out ext₁ ext₂ _ hdone hout hinitial
      obtain ⟨hold, hindex⟩ := hdone ((List.prefix_append _ _).trans hinitial)
      have hcreates := creates_applyAndIndexOutput hout
      have hfresh : out.commit ∉ (outputsOf branch ++ done).map (·.commit) := by
        have hinitial' : (outputsOf branch ++ done ++ [out]).map (·.commit)
            <+: commitsOf (branch ++ [b]) := by
          rw [commitsOf, outputsOf_concat, List.append_assoc]
          exact ((List.prefix_append_right_inj _).mpr hinitial).map _
        have hnodup' := hnodup.sublist hinitial'.sublist
        rw [List.map_append, List.nodup_append] at hnodup'
        intro hmem
        exact hnodup'.2.2 _ hmem _ (by simp) rfl
      rw [← List.append_assoc]
      exact ⟨hold.create hcreates, hcreates.indexes hold.output hindex hfresh⟩
  have hlast : last.batch = mid.batch := by
    apply forEach_eq_ok (fun _ ext₁ => ext₁.batch = mid.batch) rfl _ hinputs
    intro _ input ext₁ ext₂ _ hbatch hinput
    exact (spends_applyInput hinput).batch.trans hbatch
  rw [hkeeps.batch, hlast, commitsOf, outputsOf_concat]
  exact (hmid (List.prefix_refl _)).2

end Extension

section

variable {env : Env} {batch batch' : Batch} {branch : List Block}

def SpentBy (env : Env) (store : ChainStore) (blocks : List Block) (bitmap : Bitmap) : Prop :=
  ∀ pos, pos ∈ bitmap ↔ ∃ b ∈ blocks, ∃ stored,
    store.inputBitmaps.lookup (b.hash env) = some stored ∧ pos ∈ stored

theorem mem_drop_of_getElem? {α : Type} {l : List α} {a : α} {i n : Nat} (h : l[n]? = some a) (hle : i ≤ n)
    : a ∈ l.drop i := by
  apply List.mem_of_getElem? (i := n - i)
  rw [List.getElem?_drop, Nat.add_sub_cancel' hle, h]

theorem inputPosToRewind_go_eq_ok {i n fuel : Nat} {fb current : Block} {bitmap result : Bitmap}
    (hbranch : batch.db.headers.Branch env (headersOf branch))
    (hbitmaps : ∀ b ∈ branch.drop (i + 1), ∃ stored,
      batch.committed.inputBitmaps.lookup (b.hash env) = some stored)
    (hfb : branch[i]? = some fb) (hcurrent : branch[n]? = some current) (hle : i ≤ n)
    (h : inputPosToRewind.go env fb.header fuel current.header bitmap batch = (.ok result, batch'))
    : batch' = batch
        ∧
      ∀ pos, pos ∈ result
        ↔ pos ∈ bitmap ∨ ∃ b ∈ (branch.take (n + 1)).drop (i + 1), ∃ stored,
          batch.committed.inputBitmaps.lookup (b.hash env) = some stored ∧ pos ∈ stored := by
  have hheader {m : Nat} {b : Block} (hb : branch[m]? = some b)
      : (headersOf branch)[m]? = some b.header := by
    rw [headersOf, List.getElem?_map, hb]
    rfl
  induction fuel generalizing n current bitmap with
  | zero => simp [inputPosToRewind.go] at h
  | succ fuel ih =>
    have hheight := hbranch.height n _ (hheader hcurrent)
    unfold inputPosToRewind.go at h
    split at h
    . next hstop =>
      simp only [pure_apply, Prod.mk.injEq, Outcome.ok.injEq] at h
      obtain ⟨rfl, rfl⟩ := h
      have hn : n = i := by
        rcases hstop with hhash | hlow
        . have hstored := hbranch.stored _ (List.mem_of_getElem? (hheader hcurrent))
          rw [hhash, hbranch.stored _ (List.mem_of_getElem? (hheader hfb)), Option.some.injEq]
            at hstored
          have hheight' := hbranch.height i _ (hheader hfb)
          rw [hstored] at hheight'
          omega
        . have : current.header.height.toNat < 1 := hlow
          omega
      subst hn
      refine ⟨rfl, fun pos => ?_⟩
      rw [List.drop_eq_nil_of_le (by simp)]
      simp
    . next hgo =>
      obtain ⟨m, rfl⟩ : ∃ m, n = m + 1 := by
        have : ¬ current.header.height.toNat < 1 := fun hlow => hgo (.inr hlow)
        exact ⟨n - 1, by omega⟩
      have hlt : i ≤ m := by
        by_contra hgt
        have : i = m + 1 := by omega
        rw [this, hcurrent, Option.some.injEq] at hfb
        exact hgo (.inl (by rw [hfb]))
      obtain ⟨found, batch₁, hfound, h⟩ := bind_eq_ok.mp h
      obtain ⟨stored, hstored⟩ := hbitmaps current (mem_drop_of_getElem? hcurrent (by omega))
      have hbitmap : batch.getBlockInputBitmap env (current.header.hash env) = (some stored, batch) := by
        unfold Batch.getBlockInputBitmap
        rw [show batch.committed.inputBitmaps.lookup (current.header.hash env) = some stored from hstored]
      unfold blockInputBitmap at hfound
      simp only [hbitmap, Prod.mk.injEq, Outcome.ok.injEq] at hfound
      obtain ⟨rfl, rfl⟩ := hfound
      obtain ⟨prev, batch₂, hprev, h⟩ := bind_eq_ok.mp h
      rw [query_eq_ok, Batch.getPreviousHeader, Batch.getBlockHeader, Outcome.okOr_eq_ok] at hprev
      obtain ⟨hprev, rfl⟩ := hprev
      have hprev' := hbranch.getPreviousHeader (hheader hcurrent)
      rw [show batch.db.headers.getPreviousHeader current.header = some prev from hprev, headersOf,
        List.getElem?_map, eq_comm, Option.map_eq_some_iff] at hprev'
      obtain ⟨parent, hparent, rfl⟩ := hprev'
      obtain ⟨hbatch, hresult⟩ := ih hparent hlt h
      refine ⟨hbatch, fun pos => ?_⟩
      obtain ⟨hlen, -⟩ := List.getElem?_eq_some_iff.mp hcurrent
      rw [hresult, List.take_add_one (l := branch) (i := m + 1), hcurrent,
        List.drop_append_of_le_length (by simp; omega), Option.getD_some, Finset.mem_union, or_assoc]
      constructor
      . rintro (hmem | hmem | ⟨b, hb, hrest⟩)
        . exact .inl hmem
        . exact .inr ⟨current, by simp, stored, hstored, hmem⟩
        . exact .inr ⟨b, List.mem_append_left _ hb, hrest⟩
      . rintro (hmem | ⟨b, hb, stored', hstored', hmem⟩)
        . exact .inl hmem
        . rcases List.mem_append.mp hb with hb | hb
          . exact .inr (.inr ⟨b, hb, stored', hstored', hmem⟩)
          . simp only [Option.toList_some, List.mem_singleton] at hb
            rw [hb, hstored, Option.some.injEq] at hstored'
            exact .inr (.inl (hstored' ▸ hmem))

theorem inputPosToRewind_go_ok {i n fuel : Nat} {fb current : Block} (bitmap : Bitmap)
    (hbranch : batch.db.headers.Branch env (headersOf branch))
    (hbitmaps : ∀ b ∈ branch.drop (i + 1), ∃ stored,
      batch.committed.inputBitmaps.lookup (b.hash env) = some stored)
    (hfb : branch[i]? = some fb) (hcurrent : branch[n]? = some current) (hle : i ≤ n) (hfuel : n - i < fuel)
    : ∃ result,
        inputPosToRewind.go env fb.header fuel current.header bitmap batch = (.ok result, batch) := by
  induction fuel generalizing n current bitmap with
  | zero => contradiction
  | succ fuel ih =>
    unfold inputPosToRewind.go
    split
    . exact ⟨bitmap, rfl⟩
    . next hgo =>
      obtain ⟨m, rfl⟩ : ∃ m, n = m + 1 := by
        have hheader : (headersOf branch)[n]? = some current.header := by
          rw [headersOf, List.getElem?_map, hcurrent]
          rfl
        have hheight := hbranch.height n _ hheader
        have : ¬ current.header.height.toNat < 1 := fun hlow => hgo (.inr hlow)
        exact ⟨n - 1, by omega⟩
      have hlt : i ≤ m := by
        by_contra hgt
        have : i = m + 1 := by omega
        rw [this, hcurrent, Option.some.injEq] at hfb
        exact hgo (.inl (by rw [hfb]))
      obtain ⟨parent, hparent⟩ : ∃ parent, branch[m]? = some parent := by
        have := (List.getElem?_eq_some_iff.mp hcurrent).1
        exact ⟨_, List.getElem?_eq_getElem (by omega)⟩
      have hprev : batch.getPreviousHeader current.header = .ok parent.header := by
        have hheader : (headersOf branch)[m + 1]? = some current.header := by
          rw [headersOf, List.getElem?_map, hcurrent]
          rfl
        have hprev := hbranch.getPreviousHeader hheader
        rw [headersOf, List.getElem?_map, hparent] at hprev
        exact Outcome.okOr_eq_ok.mpr hprev
      obtain ⟨stored, hstored⟩ := hbitmaps current (mem_drop_of_getElem? hcurrent (by omega))
      have hbitmap : batch.getBlockInputBitmap env (current.header.hash env) = (some stored, batch) := by
        unfold Batch.getBlockInputBitmap
        rw [show batch.committed.inputBitmaps.lookup (current.header.hash env) = some stored from hstored]
      obtain ⟨result, hresult⟩ := ih (bitmap ∪ stored) hparent hlt (by omega)
      refine ⟨result, bind_eq_ok.mpr ⟨some stored, batch, ?_, ?_⟩⟩
      . unfold blockInputBitmap
        rw [hbitmap]
      . exact bind_eq_ok.mpr ⟨parent.header, batch, query_eq_ok.mpr ⟨hprev, rfl⟩, hresult⟩

theorem inputPosToRewind_ok
    (hbranch : batch.db.headers.Branch env (headersOf branch))
    (hbitmaps : ∀ b ∈ branch.drop (i + 1), ∃ stored,
      batch.committed.inputBitmaps.lookup (b.hash env) = some stored)
    (hfb : branch[i]? = some fb) (hlast : branch.getLast? = some last)
    : ∃ result, inputPosToRewind env fb.header last.header batch = (.ok result, batch) := by
  rw [List.getLast?_eq_getElem?] at hlast
  have hlength := hbranch.length_le
  rw [headersOf, List.length_map] at hlength
  have hlt := (List.getElem?_eq_some_iff.mp hfb).1
  unfold inputPosToRewind
  split
  . exact ⟨∅, rfl⟩
  . exact inputPosToRewind_go_ok ∅ hbranch hbitmaps hfb hlast (by omega) (by omega)

theorem inputPosToRewind_eq_ok
    (hbranch : batch.db.headers.Branch env (headersOf branch))
    (hbitmaps : ∀ b ∈ branch.drop (i + 1), ∃ stored,
      batch.committed.inputBitmaps.lookup (b.hash env) = some stored)
    (hfb : branch[i]? = some fb) (hlast : branch.getLast? = some last)
    (h : inputPosToRewind env fb.header last.header batch = (.ok result, batch'))
    : batch' = batch ∧ SpentBy env batch.committed (branch.drop (i + 1)) result := by
  obtain ⟨hlt, -⟩ := List.getElem?_eq_some_iff.mp hfb
  rw [List.getLast?_eq_getElem?] at hlast
  have hheader {m : Nat} {b : Block} (hb : branch[m]? = some b) : b.header.height.toNat = m := by
    apply hbranch.height
    rw [headersOf, List.getElem?_map, hb]
    rfl
  have hle : ¬ last.header.height < fb.header.height := by
    intro hlow
    have : last.header.height.toNat < fb.header.height.toNat := hlow
    rw [hheader hlast, hheader hfb] at this
    omega
  unfold inputPosToRewind at h
  rw [if_neg hle] at h
  obtain ⟨hbatch, hresult⟩ := inputPosToRewind_go_eq_ok hbranch hbitmaps hfb hlast (by omega) h
  refine ⟨hbatch, fun pos => ?_⟩
  rw [hresult, List.take_of_length_le (by omega)]
  simp

end

end Epic
