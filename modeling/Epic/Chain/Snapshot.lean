import Epic.Chain.LeafSets

/-!
This module contains the copies of the leaf sets that are sent to a node that syncs: when they are the
positions of the outputs that are unspent after a block.
-/

namespace Epic

open Routine Pmmr

-- the copies of the two leaf sets, in files with the hash of a header in their names
structure Snapshot where
  hash : Hash
  output : Bitmap
  rproof : Bitmap

def Extension.snapshot (env : Env) : Routine Extension ErrorKind Snapshot :=
  .gets fun ext => {
    hash := ext.header.hash env
    output := ext.outputPmmr.backend.leafSet.bitmap
    rproof := ext.rproofPmmr.backend.leafSet.bitmap }

def unspentPositions (branch : List Block) : Bitmap :=
  ((Finset.range (commitsOf branch).length).filter fun n =>
    (commitsOf branch)[n]?.all (!(spentOf branch).contains ·) = true).image leafPos

theorem mem_unspentPositions
    : pos ∈ unspentPositions branch
        ↔
      ∃ n commit, pos = leafPos n ∧ (commitsOf branch)[n]? = some commit ∧ commit ∉ spentOf branch := by
  simp only [unspentPositions, Finset.mem_image, Finset.mem_filter, Finset.mem_range]
  constructor
  . rintro ⟨n, ⟨hlt, hall⟩, rfl⟩
    rw [List.getElem?_eq_getElem hlt] at hall
    exact ⟨n, _, rfl, List.getElem?_eq_getElem hlt, by simpa using hall⟩
  . rintro ⟨n, commit, rfl, hn, hspent⟩
    refine ⟨n, ⟨(List.getElem?_eq_some_iff.mp hn).1, ?_⟩, rfl⟩
    rw [hn]
    simpa using hspent

namespace Chain

-- the archive holds the files of the txhashset together with the snapshot
def txhashsetRead (env : Env) (h : Hash) : Routine Chain ErrorKind (UInt64 × UInt64 × Snapshot) := do
  let header ← .query fun c => c.store.batch.getBlockHeader h
  let snapshot ← fun c =>
    let (res, st) := extendingReadonly (do
      Extension.rewind env header
      Extension.snapshot env) c.state
    (res, c.drop st)
  return (header.outputMmrSize, header.kernelMmrSize, snapshot)

structure Snapshot.Exact (env : Env) (branch : List Block) (b : Block) (snapshot : Snapshot) : Prop where
  hash : snapshot.hash = b.hash env
  output : snapshot.output = unspentPositions branch
  rproof : snapshot.rproof = unspentPositions branch
  inRange : ∀ pos ∈ snapshot.output, pos ≤ b.header.outputMmrSize.toNat

section

variable {env : Env} {genesis b : Block} {c c' : Chain} {branch : List Block} {i : Nat}

def rewoundLeafSet (c : Chain) (b : Block) (rewindRmPos : Bitmap) : Bitmap :=
  c.txhashset.outputPmmr.backend.leafSet.rewound b.header.outputMmrSize.toNat rewindRmPos

theorem extendingReadonly_eq_ok {α : Type} {inner : Routine Extension ErrorKind α} {st : ChainState}
    {header : BlockHeader} {a : α} {ext : Extension} (hheader : st.batch.headHeader = .ok header)
    (hinner : inner { Extension.new st header with rollback := true } = (.ok a, ext))
    (hdiscard : ext.discard st.trees = st.trees)
    : extendingReadonly inner st = (.ok a, st) := by
  refine bind_eq_ok.mpr ⟨header, st, query_eq_ok.mpr ⟨hheader, rfl⟩, ?_⟩
  dsimp only
  rw [hinner, hdiscard]

theorem OnBranch.discard_eq {last : Block} {rewindRmPos : Bitmap} {ext : Extension} {rollback : Bool}
    (h : OnBranch env genesis c branch) (hb : branch[i]? = some b)
    (hrewinds : Extension.Rewinds env b.header
      { Extension.new c.state last.header with rollback := rollback } ext rewindRmPos c.store.batch)
    : ext.discard c.txhashset = c.txhashset := by
  have hsettled : c.state.trees.Settled := h.settled
  have hunmarked : Extension.Rewinds env b.header (.new c.state last.header) { ext with rollback := false }
      rewindRmPos c.store.batch := by
    refine ⟨hrewinds.found, ?_⟩
    rw [hrewinds.state]
    rfl
  obtain ⟨-, hrange⟩ :=
    Extension.Holds.rewind hsettled h.holds h.main.recorded hb (h.main.height hb) hunmarked
  have hpending := Extension.preserves_rewind hsettled env b.header _ (.new hsettled last.header)
  rw [hunmarked.rewind_eq] at hpending
  have hdiscard := hpending.discard_eq hsettled h.holds hrange
  exact hdiscard

theorem Kept.txhashsetRead_eq (h : Kept env genesis c branch) (hb : branch[i]? = some b)
    : ∃ rewindRmPos,
        SpentBy env c.store (branch.drop (i + 1)) rewindRmPos
          ∧
        txhashsetRead env (b.hash env) c
          =
        (.ok (b.header.outputMmrSize, b.header.kernelMmrSize,
          ⟨b.hash env, c.rewoundLeafSet b rewindRmPos, c.rewoundLeafSet b rewindRmPos⟩), c) := by
  have hon := h.mapped.onBranch
  have hmain := hon.main
  obtain ⟨last, hlast⟩ := hon.exists_getLast
  have hheaders : c.store.batch.db.headers.Branch env (headersOf branch) := hmain.headers
  have hbitmaps := fun b' (hb' : b' ∈ branch.drop (i + 1)) => h.mapped.bitmaps b' (List.mem_of_mem_drop hb')
  obtain ⟨rewindRmPos, hfound⟩ := inputPosToRewind_ok hheaders hbitmaps hb hlast
  obtain ⟨-, hspent⟩ := inputPosToRewind_eq_ok hheaders hbitmaps hb hlast hfound
  refine ⟨rewindRmPos, hspent, ?_⟩
  obtain ⟨ext, hrewinds⟩ : ∃ ext, Extension.Rewinds env b.header
      { Extension.new c.state last.header with rollback := true } ext rewindRmPos c.store.batch :=
    ⟨_, hfound, rfl⟩
  have hstate := hrewinds.state
  have hposition : PMMR.lastParent (b.header.outputMmrSize.toNat + 1) b.header.outputMmrSize.toNat
      = b.header.outputMmrSize.toNat := by
    rw [(hmain.recorded i b hb).output, PMMR.lastParent_mmrSize]
  have houtput : ext.outputPmmr.backend.leafSet.bitmap = c.rewoundLeafSet b rewindRmPos := by
    have hbitmap := PMMR.bitmap_rewind hon.holds.outputPruned b.header.outputMmrSize.toNat rewindRmPos
    rw [hposition] at hbitmap
    rw [hstate]
    exact hbitmap
  have hrproof : ext.rproofPmmr.backend.leafSet.bitmap = c.rewoundLeafSet b rewindRmPos := by
    have hbitmap :=
      PMMR.bitmap_rewind h.leafSets.paired.rproofPruned b.header.outputMmrSize.toNat rewindRmPos
    rw [hposition, LeafSet.rewound, h.leafSets.paired.same] at hbitmap
    rw [hstate]
    exact hbitmap
  have hsnapshot : (Extension.rewind env b.header >>= fun _ => Extension.snapshot env)
      { Extension.new c.state last.header with rollback := true }
        = (.ok ⟨b.hash env, c.rewoundLeafSet b rewindRmPos, c.rewoundLeafSet b rewindRmPos⟩, ext) := by
    refine bind_eq_ok.mpr ⟨(), ext, hrewinds.rewind_eq, gets_eq_ok.mpr ⟨?_, rfl⟩⟩
    rw [houtput, hrproof, hstate]
    rfl
  have hread := extendingReadonly_eq_ok (hon.batch_headHeader hlast) hsnapshot
    (hon.discard_eq hb hrewinds)
  have hheader : c.store.batch.getBlockHeader (b.hash env) = .ok b.header :=
    Outcome.okOr_eq_ok.mpr (hmain.getBlockHeader (List.mem_of_getElem? hb))
  apply bind_eq_ok.mpr
  refine ⟨b.header, c, query_eq_ok.mpr ⟨hheader, rfl⟩, bind_eq_ok.mpr ⟨_, c, ?_, rfl⟩⟩
  dsimp only
  rw [hread]
  rfl

theorem Kept.leafPos_mem_rewound {rewindRmPos : Bitmap} {n : Nat} {commit : Commitment}
    (h : Kept env genesis c branch) (hb : branch[i]? = some b)
    (hspent : SpentBy env c.store (branch.drop (i + 1)) rewindRmPos)
    (hn : (commitsOf (branch.take (i + 1)))[n]? = some commit)
    : leafPos n ∈ c.rewoundLeafSet b rewindRmPos ↔ commit ∉ spentOf (branch.take (i + 1)) := by
  have hon := h.mapped.onBranch
  have hsize := (hon.main.recorded i b hb).output
  have hposition : PMMR.lastParent (b.header.outputMmrSize.toNat + 1) b.header.outputMmrSize.toNat
      = mmrSize (outputsOf (branch.take (i + 1))).length := by
    rw [hsize, PMMR.lastParent_mmrSize]
  have hunspent := h.leafSets.unspent.rewind hon.holds.outputPruned hposition
    (h.leafPos_mem_rewindRmPos hspent)
  have hleafSet := hunspent.leafSet n commit hn
  rw [PMMR.bitmap_rewind hon.holds.outputPruned, hposition, ← hsize] at hleafSet
  exact hleafSet

theorem Kept.exact_iff {rewindRmPos : Bitmap} (h : Kept env genesis c branch) (hb : branch[i]? = some b)
    (hspent : SpentBy env c.store (branch.drop (i + 1)) rewindRmPos)
    : Snapshot.Exact env (branch.take (i + 1)) b
        ⟨b.hash env, c.rewoundLeafSet b rewindRmPos, c.rewoundLeafSet b rewindRmPos⟩
        ↔
      ∀ commit ∈ spentOf (branch.drop (i + 1)), commit ∈ commitsOf (branch.take (i + 1)) := by
  have hsize := (h.mapped.onBranch.main.recorded i b hb).output
  have hlength : (commitsOf (branch.take (i + 1))).length = (outputsOf (branch.take (i + 1))).length := by
    simp [commitsOf]
  constructor
  . rintro ⟨-, hexact, -, -⟩ commit hcommit
    have hmem : commit ∈ spentOf branch := by
      rw [← spentOf_take_append branch (i + 1)]
      exact List.mem_append_right _ hcommit
    obtain ⟨n, hn⟩ := List.getElem?_of_mem (h.leafSets.unspent.once.mem_commitsOf hmem)
    have hadded : leafPos n ∈ c.rewoundLeafSet b rewindRmPos :=
      LeafSet.mem_rewound.mpr (.inr ((h.mem_rewindRmPos hspent).mpr ⟨n, commit, rfl, hn, hcommit⟩))
    have hexact : c.rewoundLeafSet b rewindRmPos = unspentPositions (branch.take (i + 1)) := hexact
    rw [hexact, mem_unspentPositions] at hadded
    obtain ⟨m, other, hm, hother, -⟩ := hadded
    rw [← leafPos_injective hm] at hother
    rw [getElem?_commitsOf_mono (List.take_prefix _ _) hother, Option.some.injEq] at hn
    rw [← hn]
    exact List.mem_of_getElem? hother
  . intro hbefore
    have hold : ∀ pos ∈ c.rewoundLeafSet b rewindRmPos, ∃ n commit,
        pos = leafPos n ∧ (commitsOf (branch.take (i + 1)))[n]? = some commit := by
      intro pos hpos
      rcases LeafSet.mem_rewound.mp hpos with ⟨hmem, hle⟩ | hmem
      . obtain ⟨n, rfl⟩ := h.leafSets.paired.leaves pos hmem
        rw [hsize, leafPos_le_mmrSize_iff, ← hlength] at hle
        exact ⟨n, _, rfl, List.getElem?_eq_getElem hle⟩
      . obtain ⟨n, commit, rfl, hn, hcommit⟩ := (h.mem_rewindRmPos hspent).mp hmem
        obtain ⟨m, hm⟩ := List.getElem?_of_mem (hbefore commit hcommit)
        have hm' := getElem?_commitsOf_mono (List.take_prefix (i + 1) branch) hm
        obtain ⟨hlt, hm'⟩ := List.getElem?_eq_some_iff.mp hm'
        obtain ⟨hlt', hn⟩ := List.getElem?_eq_some_iff.mp hn
        have hmn := h.mapped.nodup.getElem_inj_iff.mp (hm'.trans hn.symm)
        subst hmn
        exact ⟨m, commit, rfl, hm⟩
    have hexact : c.rewoundLeafSet b rewindRmPos = unspentPositions (branch.take (i + 1)) := by
      ext pos
      rw [mem_unspentPositions]
      constructor
      . intro hpos
        obtain ⟨n, commit, rfl, hn⟩ := hold pos hpos
        exact ⟨n, commit, rfl, hn, (h.leafPos_mem_rewound hb hspent hn).mp hpos⟩
      . rintro ⟨n, commit, rfl, hn, hunspent⟩
        exact (h.leafPos_mem_rewound hb hspent hn).mpr hunspent
    refine ⟨rfl, hexact, hexact, fun pos hpos => ?_⟩
    obtain ⟨n, commit, rfl, hn⟩ := hold pos hpos
    rw [hsize, leafPos_le_mmrSize_iff, ← hlength]
    exact (List.getElem?_eq_some_iff.mp hn).1

theorem snapshot_exact_iff {powVerifier : BlockHeader → Bool} {archiveMode : Bool}
    (hstart : init env powVerifier archiveMode genesis = .ok c)
    (hheight : genesis.header.height = 0)
    (houtputs : genesis.header.outputMmrSize.toNat = mmrSize genesis.body.outputs.length)
    (hkernels : genesis.header.kernelMmrSize.toNat = mmrSize genesis.body.kernels.length)
    (hinputs : genesis.body.inputs = []) (hnodup : (genesis.body.outputs.map (·.commit)).Nodup)
    (hrun : ProcessRun env (Traceable env genesis) c c')
    : ∃ branch,
        Current env genesis c' branch
          ∧
        ∀ i b, branch[i]? = some b → ∃ snapshot,
          txhashsetRead env (b.hash env) c'
            = (.ok (b.header.outputMmrSize, b.header.kernelMmrSize, snapshot), c')
            ∧
          (Snapshot.Exact env (branch.take (i + 1)) b snapshot
            ↔
          ∀ commit ∈ spentOf (branch.drop (i + 1)), commit ∈ commitsOf (branch.take (i + 1))) := by
  have hnodup : (commitsOf [genesis]).Nodup := by
    simpa [commitsOf, outputsOf] using hnodup
  obtain ⟨branch, h⟩ := kept_run hheight (.singleton houtputs hkernels) hinputs hnodup hstart hrun
  refine ⟨branch, h.mapped.onBranch.current, fun i b hb => ?_⟩
  obtain ⟨rewindRmPos, hspent, hread⟩ := h.txhashsetRead_eq hb
  exact ⟨_, hread, h.exact_iff hb hspent⟩

end

-- The second block spends an output of the first one. That is one that the copy at the first block can
-- hold, and one that the copy at the genesis block cannot hold.
open Sample in
theorem snapshot_exact_iff_spent
    : (∃ snapshot,
        txhashsetRead env (side₁.hash env) spent
          = (.ok (side₁.header.outputMmrSize, side₁.header.kernelMmrSize, snapshot), spent)
          ∧
        Snapshot.Exact env [Sample.genesis, side₁] side₁ snapshot)
        ∧
      ∃ snapshot,
        txhashsetRead env (Sample.genesis.hash env) spent = (.ok (0, 0, snapshot), spent)
          ∧
        ¬ Snapshot.Exact env [Sample.genesis] Sample.genesis snapshot := by
  obtain ⟨-, -, -, -, -, -, hbranch, hhead⟩ := extends_spent
  obtain ⟨branch, hcurrent, hexact⟩ :=
    snapshot_exact_iff init_start rfl rfl rfl rfl (by decide) processRun_spent
  obtain rfl := hcurrent.eq_of_head hbranch rfl hhead
  obtain ⟨first, hread, hfirst⟩ := hexact 1 side₁ rfl
  obtain ⟨none, hread', hnone⟩ := hexact 0 Sample.genesis rfl
  have hbefore : spentOf [side₂] ⊆ commitsOf [Sample.genesis, side₁] := by decide
  have hlater : ¬ spentOf [side₁, side₂] ⊆ commitsOf [Sample.genesis] := by decide
  exact ⟨⟨first, hread, hfirst.mpr hbefore⟩, none, hread', mt hnone.mp hlater⟩

def SnapshotLaw (env : Env) (genesis : Block) (c : Chain) : Prop :=
  ∃ branch,
    Current env genesis c branch
      ∧
    ∀ i b, branch[i]? = some b → ∃ snapshot,
      (txhashsetRead env (b.hash env) c).1
        = .ok (b.header.outputMmrSize, b.header.kernelMmrSize, snapshot)
        ∧
      Snapshot.Exact env (branch.take (i + 1)) b snapshot

namespace Sample

def outputSnapshot (c : Chain) (h : Hash) : Bitmap :=
  match (txhashsetRead env h c).1 with
  | .ok (_, _, snapshot) => snapshot.output
  | _ => ∅

end Sample

-- The output of the first block is not there yet, but rewinding adds what the second block removed after
-- it cut off what comes after the genesis block.
open Sample in
theorem snapshot_of_genesis_holds_later_output
    : ProcessRun env (fun _ _ => True) start spent ∧ ¬ SnapshotLaw env Sample.genesis spent := by
  obtain ⟨-, h₁, -, -, h₂, -, hbranch, hhead⟩ := extends_spent
  have hmem : 1 ∈ outputSnapshot spent (Sample.genesis.hash env) := by decide +kernel
  have hrun₁ := processRun_process .start h₁
  refine ⟨processRun_process hrun₁ h₂, ?_⟩
  rintro ⟨branch, hcurrent, hexact⟩
  have heq := hcurrent.eq_of_head hbranch rfl hhead
  subst heq
  obtain ⟨snapshot, hread, hexact⟩ := hexact 0 Sample.genesis rfl
  have hsnapshot : outputSnapshot spent (Sample.genesis.hash env) = snapshot.output := by
    unfold outputSnapshot
    rw [hread]
  rw [hsnapshot] at hmem
  have hle := hexact.inRange 1 hmem
  revert hle
  decide

end Chain
end Epic
