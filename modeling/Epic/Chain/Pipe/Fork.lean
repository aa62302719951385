import Epic.Chain.Pipe.ProcessBlock
import Epic.Chain.TxHashSet.Trees

/-!
This module contains the branches of the tree of stored blocks, and how a block on any of them is taken
in: the extension is rewound to the fork point and the blocks of the other branch are applied again.
-/

namespace Epic

open Routine

structure ChainStore.Branch (env : Env) (store : ChainStore) (genesis : Block) (branch : List Block)
    : Prop where
  headers : store.headers.Branch env (headersOf branch)
  blocks : ∀ b ∈ branch, store.blocks.lookup (b.hash env) = some b
  isFirst : branch.head? = some genesis
  recorded : SizesRecorded branch

namespace ChainStore.Branch

variable {env : Env} {store : ChainStore} {genesis : Block} {branch q : List Block}

instance decidable : Decidable (store.Branch env genesis branch) :=
  decidable_of_iff
    (store.headers.Branch env (headersOf branch)
      ∧ (∀ b ∈ branch, store.blocks.lookup (b.hash env) = some b)
      ∧ branch.head? = some genesis
      ∧ SizesRecorded branch)
    ⟨fun ⟨headers, blocks, isFirst, recorded⟩ => ⟨headers, blocks, isFirst, recorded⟩,
      fun h => ⟨h.headers, h.blocks, h.isFirst, h.recorded⟩⟩

theorem height {n : Nat} {b : Block} (h : store.Branch env genesis branch) (hb : branch[n]? = some b)
    : b.header.height.toNat = n := by
  apply h.headers.height
  rw [headersOf, List.getElem?_map, hb]
  rfl

theorem eq_of_hashes {blocks : List Block} (h : ∀ b ∈ q, store.blocks.lookup (b.hash env) = some b)
    (hblocks : ∀ b ∈ blocks, store.blocks.lookup (b.hash env) = some b)
    (hhashes : q.map (·.hash env) = blocks.map (·.hash env))
    : q = blocks := by
  have hfound : ∀ l : List Block, (∀ b ∈ l, store.blocks.lookup (b.hash env) = some b)
      → (l.map (·.hash env)).map store.blocks.lookup = l.map some := by
    intro l hl
    rw [List.map_map]
    exact List.map_congr_left hl
  have heq : q.map some = blocks.map some := by
    rw [← hfound q h, ← hfound blocks hblocks, hhashes]
  exact List.map_injective_iff.mpr (Option.some_injective _) heq

theorem map_hash_eq (blocks : List Block)
    : (headersOf blocks).map (·.hash env) = blocks.map (·.hash env) := by
  simp [headersOf, Block.hash]

theorem take_eq_take {n : Nat} (h : store.Branch env genesis branch) (hq : store.Branch env genesis q)
    (htake : (headersOf q).take n = (headersOf branch).take n)
    : q.take n = branch.take n := by
  have hq : ∀ b ∈ q.take n, store.blocks.lookup (b.hash env) = some b :=
    fun b hb => hq.blocks b (List.mem_of_mem_take hb)
  have hbranch : ∀ b ∈ branch.take n, store.blocks.lookup (b.hash env) = some b :=
    fun b hb => h.blocks b (List.mem_of_mem_take hb)
  apply eq_of_hashes hq hbranch
  rw [← map_hash_eq, ← map_hash_eq, headersOf_take, headersOf_take, htake]

theorem length_eq (h : store.Branch env genesis branch)
    (hlast : branch.getLast? = some last)
    : branch.length = last.header.height.toNat + 1 := by
  have hheader : (headersOf branch).getLast? = some last.header := by
    simp [headersOf, hlast]
  have hheight := h.headers.height_getLast hheader
  rw [hheight, headersOf, List.length_map]

theorem eq_of_getLast (h : store.Branch env genesis branch)
    (hq : store.Branch env genesis q) (hlast : branch.getLast? = some last)
    (hlast' : q.getLast? = some last)
    : q = branch := by
  have hlength := h.length_eq hlast
  have hlength' := hq.length_eq hlast'
  rw [List.getLast?_eq_getElem?] at hlast hlast'
  have hheader : (headersOf branch)[last.header.height.toNat]? = some last.header := by
    rw [hlength, Nat.add_sub_cancel] at hlast
    rw [headersOf, List.getElem?_map, hlast]
    rfl
  have hheader' : (headersOf q)[last.header.height.toNat]? = some last.header := by
    rw [hlength', Nat.add_sub_cancel] at hlast'
    rw [headersOf, List.getElem?_map, hlast']
    rfl
  have htake := h.take_eq_take hq (hq.headers.take_eq_take h.headers hheader' hheader)
  rwa [List.take_of_length_le (by omega), List.take_of_length_le (by omega)] at htake

end ChainStore.Branch

section

variable {env : Env} {pmmr : PMMR HeaderEntry} {batch : Batch} {branch q : List BlockHeader}

theorem isOnCurrentChain_eq_ok
    (hbranch : batch.db.headers.Branch env branch) (htracks : pmmr.Tracks env branch)
    (hstored : batch.db.headers.getBlockHeader (header.hash env) = some header)
    (hheight : header.height.toNat = n) (h : isOnCurrentChain env pmmr batch header = .ok ())
    : branch[n]? = some header := by
  unfold isOnCurrentChain getHeaderByHeight at h
  simp only [Outcome.bind_eq_ok, Outcome.okOr_eq_ok, Outcome.require_eq_ok, hheight,
    htracks.getHeaderHash, Option.map_eq_some_iff, Batch.getBlockHeader] at h
  obtain ⟨found, ⟨hash, ⟨other, hother, rfl⟩, hfound⟩, heq⟩ := h
  rw [hbranch.stored other (List.mem_of_getElem? hother), Option.some.injEq] at hfound
  subst hfound
  have hsame := hbranch.stored other (List.mem_of_getElem? hother)
  rw [heq, hstored, Option.some.injEq] at hsame
  rw [hsame]
  exact hother

theorem forkHashes_eq_ok {fuel n : Nat} {current forked : BlockHeader} {hashes hashes' : List Hash}
    (hbranch : batch.db.headers.Branch env branch) (htracks : pmmr.Tracks env branch)
    (hq : batch.db.headers.Branch env q) (hfirst : q.head? = branch.head?)
    (hcurrent : q[n]? = some current)
    (h : forkHashes env pmmr batch fuel current hashes = .ok (forked, hashes'))
    : ∃ i,
        i ≤ n
          ∧
        q[i]? = some forked
          ∧
        q.take (i + 1) = branch.take (i + 1)
          ∧
        hashes' = ((q.take (n + 1)).drop (i + 1)).map (·.hash env) ++ hashes := by
  have hheight := hq.height n current hcurrent
  induction fuel generalizing n current hashes with
  | zero => simp [forkHashes] at h
  | succ fuel ih =>
    unfold forkHashes at h
    split at h
    . next hcond =>
      obtain ⟨prev, hprev, h⟩ := Outcome.bind_eq_ok.mp h
      obtain ⟨m, rfl⟩ : ∃ m, n = m + 1 := by
        have hpos : 0 < current.height.toNat := hcond.1
        exact ⟨n - 1, by omega⟩
      have hlookup := hq.getPreviousHeader hcurrent
      unfold Batch.getPreviousHeader Batch.getBlockHeader at hprev
      rw [Outcome.okOr_eq_ok] at hprev
      rw [show batch.db.headers.getPreviousHeader current = some prev from hprev] at hlookup
      obtain ⟨i, hi, hforked, htake, hhashes⟩ := ih hlookup.symm h (hq.height m prev hlookup.symm)
      refine ⟨i, by omega, hforked, htake, ?_⟩
      obtain ⟨hlt, -⟩ := List.getElem?_eq_some_iff.mp hcurrent
      rw [hhashes, List.take_add_one (l := q) (i := m + 1), hcurrent,
        List.drop_append_of_le_length (by simp; omega)]
      simp
    . next hcond =>
      simp only [Outcome.ok.injEq, Prod.mk.injEq] at h
      obtain ⟨rfl, rfl⟩ := h
      refine ⟨n, Nat.le_refl n, hcurrent, ?_, by simp⟩
      by_cases hzero : current.height > 0
      . have hok : (isOnCurrentChain env pmmr batch current).isOk = true := by
          by_contra hnot
          exact hcond ⟨hzero, by simpa using hnot⟩
        obtain ⟨⟨⟩, hok⟩ := Outcome.isOk_eq_true.mp hok
        have hmem := isOnCurrentChain_eq_ok hbranch htracks
          (hq.stored current (List.mem_of_getElem? hcurrent)) hheight hok
        exact hq.take_eq_take hbranch hcurrent hmem
      . have hn : n = 0 := by
          have : current.height = 0 := by
            have : ¬ (0 < current.height.toNat) := hzero
            apply UInt64.toNat_inj.mp
            simpa using this
          rw [this] at hheight
          exact hheight.symm
        rw [hn, List.take_one, List.take_one, hfirst]

theorem forkPoint_eq_ok {header forked : BlockHeader} {hashes : List Hash}
    (hbranch : batch.db.headers.Branch env branch) (htracks : pmmr.Tracks env branch)
    (hq : batch.db.headers.Branch env q) (hfirst : q.head? = branch.head?)
    (hparent : batch.db.headers.getPreviousHeader header = q.getLast?)
    (h : forkPoint env pmmr batch header = .ok (forked, hashes))
    : ∃ i,
        q[i]? = some forked
          ∧
        q.take (i + 1) = branch.take (i + 1)
          ∧
        hashes = (q.drop (i + 1)).map (·.hash env) := by
  obtain ⟨current, hcurrent, h⟩ := Outcome.bind_eq_ok.mp h
  unfold Batch.getPreviousHeader Batch.getBlockHeader at hcurrent
  rw [Outcome.okOr_eq_ok] at hcurrent
  rw [show batch.db.headers.getPreviousHeader header = some current from hcurrent] at hparent
  rw [List.getLast?_eq_getElem?] at hparent
  obtain ⟨i, -, hforked, htake, hhashes⟩ :=
    forkHashes_eq_ok hbranch htracks hq hfirst hparent.symm h
  refine ⟨i, hforked, htake, ?_⟩
  rw [List.take_of_length_le (by omega)] at hhashes
  rw [hhashes, List.append_nil]

end

namespace Pipe

variable {env : Env} {genesis b : Block} {branch q : List Block} {st : ChainState}

theorem forEach_applyForkBlock_eq_ok {blocks : List Block} {ext ext' : Extension} {u : Unit}
    (hblocks : ∀ fb ∈ blocks, ext.batch.db.blocks.lookup (fb.hash env) = some fb)
    (h : forEach (blocks.map (·.hash env)) (applyForkBlock env) ext = (.ok u, ext'))
    : forEach blocks (applyInExtension env) ext = (.ok u, ext') := by
  induction blocks generalizing ext with
  | nil => exact h
  | cons fb blocks ih =>
    obtain ⟨⟨⟩, ext₁, hfork, hrest⟩ := bind_eq_ok.mp h
    obtain ⟨fb', ext₂, hfound, happly⟩ := bind_eq_ok.mp hfork
    rw [query_eq_ok, Outcome.okOr_eq_ok, Batch.getBlock, hblocks fb List.mem_cons_self,
      Option.some.injEq] at hfound
    obtain ⟨rfl, rfl⟩ := hfound
    refine bind_eq_ok.mpr ⟨(), ext₁, happly, ih ?_ hrest⟩
    intro other hother
    have hframe : Preserves (Extension.Each (fun _ => True) (fun _ => True) (fun _ => True)
        (fun _ => True) ext.batch.Frame) (applyInExtension env fb) := by
      apply preserves_applyInExtension
      have htrue {E : Type} : PMMR.Stable (fun _ : PMMR E => True) :=
        ⟨fun _ _ _ _ => trivial, fun _ _ _ => trivial⟩
      exact ⟨htrue, htrue, htrue, htrue,
        fun batch commit pos h => h.trans (batch.frame_saveOutputPos commit pos),
        fun batch h sums hbatch => hbatch.trans (batch.frame_saveBlockSums h sums)⟩
    have hbatch := (hframe ext ⟨trivial, trivial, trivial, trivial, .refl _⟩).batch
    rw [happly] at hbatch
    rw [hbatch.blocks]
    exact hblocks other (List.mem_cons_of_mem fb hother)

-- the branch that a block extends, and the branch that the mountain ranges hold
structure Joins (env : Env) (st : ChainState) (genesis : Block) (branch q : List Block) (b : Block)
    (isFork : Bool) : Prop where
  main : st.batch.db.Branch env genesis branch
  tracks : st.trees.headerPmmr.Tracks env (headersOf branch)
  side : st.batch.db.Branch env genesis q
  parent : st.batch.db.headers.getPreviousHeader b.header = q.getLast?.map (·.header)
  next : isFork = false → q = branch

theorem Joins.forkPoint {isFork : Bool} {forked : BlockHeader} {hashes : List Hash}
    (h : Joins env st genesis branch q b isFork)
    (hfork : forkPoint env st.trees.headerPmmr st.batch b.header = .ok (forked, hashes))
    : ∃ i fb,
        branch[i]? = some fb
          ∧
        forked = fb.header
          ∧
        q.take (i + 1) = branch.take (i + 1)
          ∧
        hashes = (q.drop (i + 1)).map (·.hash env) := by
  have hfirst : (headersOf q).head? = (headersOf branch).head? := by
    simp [headersOf, h.main.isFirst, h.side.isFirst]
  have hparent : st.batch.db.headers.getPreviousHeader b.header = (headersOf q).getLast? := by
    rw [h.parent]
    simp [headersOf]
  obtain ⟨i, hforked, htake, hhashes⟩ :=
    forkPoint_eq_ok h.main.headers h.tracks h.side.headers hfirst hparent hfork
  have hblocks := h.main.take_eq_take h.side htake
  rw [headersOf, List.getElem?_map, Option.map_eq_some_iff] at hforked
  obtain ⟨fb, hfb, rfl⟩ := hforked
  refine ⟨i, fb, ?_, rfl, hblocks, ?_⟩
  . have hsame := congrArg (·[i]?) hblocks
    simp only [List.getElem?_take_of_lt (Nat.lt_succ_self i)] at hsame
    rw [← hsame]
    exact hfb
  . rw [hhashes, headersOf, ← List.map_drop]
    exact ChainStore.Branch.map_hash_eq _

-- An invariant of the extension, over the branch that it holds. It survives rewinding to a block of the
-- branch and taking in the next block of the other branch.
structure Carries (env : Env) (st : ChainState) (headHeader : BlockHeader) (branch q : List Block)
    (b : Block) (I : List Block → Extension → Prop) : Prop where
  start : I branch (.new st headHeader)
  rewind : ∀ i fb ext' rewindRmPos batch, branch[i]? = some fb →
    Extension.Rewinds env fb.header (.new st headHeader) ext' rewindRmPos batch →
    I (branch.take (i + 1)) ext'
  apply : ∀ done fb ext ext' sums, done ++ [fb] <+: q ++ [b] → I done ext →
    Extends env fb ext ext' sums → I (done ++ [fb]) ext'

theorem Carries.and
    (hI : Carries env st headHeader branch q b I) (hJ : Carries env st headHeader branch q b J)
    : Carries env st headHeader branch q b fun done ext => I done ext ∧ J done ext where
  start := ⟨hI.start, hJ.start⟩
  rewind i fb ext' rewindRmPos batch hfb hrewinds :=
    ⟨hI.rewind i fb ext' rewindRmPos batch hfb hrewinds,
      hJ.rewind i fb ext' rewindRmPos batch hfb hrewinds⟩
  apply done fb ext ext' sums hinitial hext hextends :=
    ⟨hI.apply done fb ext ext' sums hinitial hext.1 hextends,
      hJ.apply done fb ext ext' sums hinitial hext.2 hextends⟩

structure HoldsBranch (env : Env) (done : List Block) (ext : Extension) : Prop where
  holds : ext.Holds env done
  rollback : ext.rollback = false

theorem Extends.holdsBranch
    (h : Extends env fb ext ext' sums) (hext : HoldsBranch env done ext)
    : HoldsBranch env (done ++ [fb]) ext' := by
  obtain ⟨pos, p, -, hfollows⟩ := Extension.follows_applyBlock h.applied
  have hholds : Extension.Holds env done { ext with
      batch := ext.batch.saveBlockSums (fb.header.hash env) sums } := hext.holds
  exact ⟨hholds.applyBlock h.applied, hfollows.rollback.trans hext.rollback⟩

theorem carries_holdsBranch {headHeader : BlockHeader} (hst : st.trees.Settled)
    (hmain : st.batch.db.Branch env genesis branch) (hholds : st.trees.Holds env branch)
    : Carries env st headHeader branch q b (HoldsBranch env) where
  start := ⟨hholds, rfl⟩
  rewind i fb ext' rewindRmPos batch hfb hrewinds := by
    refine ⟨(Extension.Holds.rewind hst hholds hmain.recorded hfb (hmain.height hfb) hrewinds).1, ?_⟩
    rw [hrewinds.state]
    rfl
  apply done fb ext ext' sums _ hext hextends := hextends.holdsBranch hext

structure RootsMatch (env : Env) (header : BlockHeader) (outputPmmr : PMMR OutputIdentifier)
    (rproofPmmr : PMMR RangeProof) (kernelPmmr : PMMR TxKernel) : Prop where
  output : (outputPmmr.root env : Outcome ErrorKind Hash) = .ok header.outputRoot
  rproof : (rproofPmmr.root env : Outcome ErrorKind Hash) = .ok header.rangeProofRoot
  kernel : (kernelPmmr.root env : Outcome ErrorKind Hash) = .ok header.kernelRoot

-- above height 0 the sizes and the roots of a block are compared with those of its header
structure Matches (env : Env) (header : BlockHeader) (ext : Extension) : Prop where
  outputSize : ext.outputPmmr.unprunedSize = header.outputMmrSize.toNat
  kernelSize : ext.kernelPmmr.unprunedSize = header.kernelMmrSize.toNat
  roots : RootsMatch env header ext.outputPmmr ext.rproofPmmr ext.kernelPmmr

theorem Extends.matches (h : Extends env b ext ext' sums)
    (hheight : b.header.height ≠ 0)
    : Matches env b.header ext' := by
  obtain ⟨mid, happlies⟩ := Extension.applies_applyBlock h.applied
  have hroots := h.roots
  have hsizes := h.sizes
  simp only [Extension.validateRoots, query_eq_ok, happlies.header, if_neg hheight,
    Outcome.bind_eq_ok, Outcome.require_eq_ok, and_true] at hroots
  simp only [Extension.validateSizes, query_eq_ok, happlies.header, if_neg hheight,
    Outcome.require_eq_ok, and_true] at hsizes
  obtain ⟨-, -, outputRoot, houtput, rproofRoot, hrproof, kernelRoot, hkernel, rfl, rfl, rfl⟩ := hroots
  obtain ⟨-, houtputSize, hkernelSize, -⟩ := hsizes
  exact ⟨houtputSize, hkernelSize, houtput, hrproof, hkernel⟩

theorem Extends.recorded (h : Extends env b ext ext' sums)
    (hheight : b.header.height ≠ 0) (hholds : ext'.Holds env (q ++ [b]))
    : Recorded (q ++ [b]) q.length b := by
  have hmatches := h.matches hheight
  have houtput := hholds.output.lastPos
  have hkernel := hholds.kernel.lastPos
  rw [PMMR.length_leavesOf] at houtput hkernel
  constructor
  . rw [List.take_of_length_le (by simp), ← houtput]
    exact hmatches.outputSize.symm
  . rw [List.take_of_length_le (by simp), ← hkernel]
    exact hmatches.kernelSize.symm

theorem extendBlock_eq_ok (hjoins : Joins env st genesis branch q b isFork)
    (hI : Carries env st headHeader branch q b I)
    (h : extendBlock env b isFork (.new st headHeader) = (.ok u, ext'))
    : ∃ ext₀ ext₁ sums head,
        I q ext₀
          ∧
        Extends env b ext₀ ext₁ sums
          ∧
        I (q ++ [b]) ext₁
          ∧
        ext₁.batch.db.head = some head
          ∧
        ext' = { ext₁ with rollback := ext₁.rollback || !hasMoreWork b.header head } := by
  obtain ⟨⟨⟩, ext₀, hfork, h⟩ := bind_eq_ok.mp h
  obtain ⟨⟨⟩, ext₁, happly, hrollback⟩ := bind_eq_ok.mp h
  obtain ⟨sums, hextends⟩ := applyInExtension_eq_ok happly
  obtain ⟨head, hhead, heq⟩ := rollbackIfLessWork_eq_ok hrollback
  suffices hq : I q ext₀ by
    have hb := hI.apply q b ext₀ ext₁ sums (List.prefix_refl _) hq hextends
    exact ⟨ext₀, ext₁, sums, head, hq, hextends, hb, hhead, heq⟩
  unfold onlyIf at hfork
  cases isFork with
  | false =>
    simp only [Bool.false_eq_true, ↓reduceIte, pure_apply, Prod.mk.injEq] at hfork
    rw [← hfork.2, hjoins.next rfl]
    exact hI.start
  | true =>
    rw [if_pos rfl] at hfork
    obtain ⟨⟨forked, hashes⟩, ext₂, hpoint, hfork⟩ := bind_eq_ok.mp hfork
    rw [query_eq_ok] at hpoint
    obtain ⟨hpoint, rfl⟩ := hpoint
    obtain ⟨⟨⟩, ext₂, hrewind, hblocks⟩ := bind_eq_ok.mp hfork
    obtain ⟨i, fb, hfb, rfl, htake, rfl⟩ := hjoins.forkPoint hpoint
    obtain ⟨rewindRmPos, batch, hrewinds⟩ := Extension.rewind_eq_ok hrewind
    have hstart := hI.rewind i fb ext₂ rewindRmPos batch hfb hrewinds
    rw [← htake] at hstart
    have hstored : ∀ fb ∈ q.drop (i + 1), ext₂.batch.db.blocks.lookup (fb.hash env) = some fb := by
      intro other hother
      have hframe := preserves_inputPosToRewind env st.batch fb.header headHeader st.batch (.refl _)
      have hfound : inputPosToRewind env fb.header headHeader st.batch = (.ok rewindRmPos, batch) :=
        hrewinds.found
      rw [hfound] at hframe
      rw [hrewinds.state]
      dsimp only
      rw [hframe.blocks]
      exact hjoins.side.blocks other (List.mem_of_mem_drop hother)
    have hloop := forEach_applyForkBlock_eq_ok hstored hblocks
    have hdone := forEach_eq_ok
      (fun done ext => done <+: q.drop (i + 1) → I (q.take (i + 1) ++ done) ext)
      (fun _ => by rw [List.append_nil]; exact hstart) ?_ hloop (List.prefix_refl _)
    . rw [List.take_append_drop] at hdone
      exact hdone
    . intro done fb' ext₃ ext₄ _ hdone happly' hinitial
      obtain ⟨sums', hextends'⟩ := applyInExtension_eq_ok happly'
      rw [← List.append_assoc]
      apply hI.apply _ fb' ext₃ ext₄ sums' _ (hdone ((List.prefix_append _ _).trans hinitial)) hextends'
      have hq : q.take (i + 1) ++ (done ++ [fb']) <+: q := by
        conv => rhs; rw [← List.take_append_drop (i + 1) q]
        exact (List.prefix_append_right_inj _).mpr hinitial
      rw [List.append_assoc]
      exact hq.trans (List.prefix_append _ _)

theorem extendBlock_inRange {isFork : Bool} (headHeader : BlockHeader) (hst : st.trees.Settled)
    (hjoins : Joins env st genesis branch q b isFork) (hholds : st.trees.Holds env branch)
    : (extendBlock env b isFork (.new st headHeader)).2.InRange := by
  have hnew := Extension.InRange.new hst hholds headHeader
  have hstable := Extension.stable_inRange
  suffices hfork : (onlyIf isFork (rewindAndApplyFork env b) (.new st headHeader)).2.InRange by
    apply snd_bind hfork
    intro _ ext₁ hext₁
    rw [hext₁] at hfork
    exact preserves_applyOrRollback hstable env b ext₁ hfork
  cases isFork with
  | false => exact hnew
  | true =>
    apply snd_bind hnew
    rintro ⟨forked, hashes⟩ ext₁ hpoint
    rw [query_eq_ok] at hpoint
    obtain ⟨hpoint, rfl⟩ := hpoint
    obtain ⟨i, fb, hfb, rfl, -, -⟩ := hjoins.forkPoint hpoint
    have hrewind := Extension.inRange_rewind hst hholds hjoins.main.recorded hfb
      (hjoins.main.height hfb) headHeader
    apply snd_bind hrewind
    intro _ ext₁ hext₁
    rw [hext₁] at hrewind
    exact preserves_applyForkBlocks hstable env hashes ext₁ hrewind

end Pipe

end Epic
