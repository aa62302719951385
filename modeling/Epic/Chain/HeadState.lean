import Epic.Chain.Branch
import Epic.Chain.Genesis
import Epic.Chain.Shadow
import Epic.Chain.Submissions
import Epic.Core.Genesis

/-!
This module contains what the mountain ranges hold at the head of the chain: the header mountain range
the head and its ancestors, the others what the header of the head records.
-/

namespace Epic
namespace Chain

open Routine Pmmr

section

variable {env : Env} {genesis b : Block} {c c' : Chain} {branch : List Block}

theorem lookup_init {powVerifier : BlockHeader → Bool} {archiveMode : Bool}
    (h : init env powVerifier archiveMode genesis = .ok c) (hash : Hash)
    : c.store.blocks.lookup hash = (if hash = genesis.hash env then some genesis else none)
        ∧
      c.store.headers.getBlockHeader hash
        = if hash = genesis.hash env then some genesis.header else none := by
  obtain ⟨sums, ext, hstarts⟩ := init_eq_ok h
  have hblocks : c.store.blocks = AList.insert (genesis.hash env) genesis ∅ := by
    rw [hstarts.store]
    exact hstarts.frame.blocks
  have hheaders : c.store.headers = HeaderDb.saveBlockHeader env ∅ genesis.header := by
    rw [hstarts.store]
    exact hstarts.frame.headers
  rw [hblocks, hheaders]
  split
  . next heq =>
    rw [heq]
    exact ⟨AList.lookup_insert _, AList.lookup_insert _⟩
  . next hne => exact ⟨AList.lookup_insert_ne hne, AList.lookup_insert_ne hne⟩

theorem eq_genesis_of_lookup_init {powVerifier : BlockHeader → Bool} {archiveMode : Bool} {hash : Hash}
    (h : init env powVerifier archiveMode genesis = .ok c) (hb : c.store.blocks.lookup hash = some b)
    : hash = genesis.hash env ∧ b = genesis := by
  rw [(lookup_init h hash).1] at hb
  split at hb
  . next heq => exact ⟨heq, (Option.some.inj hb).symm⟩
  . contradiction

theorem onBranch_init {powVerifier : BlockHeader → Bool} {archiveMode : Bool}
    (hheight : genesis.header.height = 0) (hrecorded : Recorded [genesis] 0 genesis)
    (h : init env powVerifier archiveMode genesis = .ok c)
    : OnBranch env genesis c [genesis] := by
  obtain ⟨hblock, hheader⟩ := lookup_init h (genesis.hash env)
  rw [if_pos rfl] at hblock hheader
  have hsizes : SizesRecorded [genesis] := by
    intro n b hb
    cases n with
    | zero =>
      simp only [List.getElem?_cons_zero, Option.some.injEq] at hb
      rw [← hb]
      exact hrecorded
    | succ n => simp at hb
  have hmain : c.store.Branch env genesis [genesis] :=
    ⟨.singleton hheader hheight, by simpa using hblock, rfl, hsizes⟩
  obtain ⟨sums, ext, hstarts⟩ := init_eq_ok h
  refine ⟨settled_init h, ⟨?_, ?_, ?_⟩, hmain, ?_, ?_⟩
  . intro hash b hb
    obtain ⟨rfl, rfl⟩ := eq_genesis_of_lookup_init h hb
    rfl
  . intro hash
    rw [(lookup_init h hash).1, (lookup_init h hash).2]
    split <;> rfl
  . intro hash b hb
    obtain ⟨rfl, rfl⟩ := eq_genesis_of_lookup_init h hb
    exact ⟨[b], hmain, rfl⟩
  . rw [hstarts.store]
    exact hstarts.frame.head
  . have hnew : Extension.Holds env []
        (.new ⟨.new, genesisBatch env genesis⟩ genesis.header) := TxHashSet.Holds.new env
    rw [hstarts.txhashset]
    exact (hnew.applyBlock hstarts.applied).sync

def HeightsUpTo (n : Nat) (c : Chain) : Prop :=
  ∀ h, ∀ header : BlockHeader, c.store.headers.getBlockHeader h = some header → header.height.toNat ≤ n

theorem HeightsUpTo.noWrap (h : c.HeightsUpTo n)
    (hn : env.overflowChecks = true ∨ n + 1 < 2 ^ 64) (b : Block)
    : c.NoWrap env b := by
  intro hash header hheader hadd hzero
  have hle := h hash header hheader
  have hfits : header.height.toNat + UInt64.toNat 1 < 2 ^ 64 := by
    rcases hn with hchecks | hlt
    . rw [hchecks] at hadd
      exact MachineInt.fits_of_add hadd
    . rw [UInt64.toNat_one]
      omega
  have hsum := MachineInt.toNat_of_add hadd hfits
  rw [hzero, UInt64.toNat_zero, UInt64.toNat_one] at hsum
  omega

theorem HeightsUpTo.grows (h : c.HeightsUpTo n)
    (hgrows : c.store.Grows env genesis c'.store q b)
    : c'.HeightsUpTo (n + 1) := by
  intro hash header hheader
  by_cases heq : hash = b.hash env
  . rw [heq, hgrows.getBlockHeader_self, Option.some.injEq] at hheader
    obtain ⟨prev, hprev, -⟩ := hgrows.parent
    have hlength := hgrows.side.length_eq hprev
    have hle := h _ _ (hgrows.side.getBlockHeader (List.mem_of_getLast? hprev))
    rw [← hheader, hgrows.height]
    omega
  . rw [hgrows.getBlockHeader_ne heq] at hheader
    have := h hash header hheader
    omega

-- either nothing was taken in yet or the roots were compared with those of the head
inductive Rooted (env : Env) (genesis : Block) (start : TxHashSet) (trees : TxHashSet)
    (branch : List Block) : Prop where
  | isGenesis (hbranch : branch = [genesis]) (htrees : trees = start)
  | isBlock (last : Block) (hlast : branch.getLast? = some last) (hheight : last.header.height ≠ 0)
    (hroots : Pipe.RootsMatch env last.header trees.outputPmmr trees.rproofPmmr trees.kernelPmmr)

theorem rootsMatch_sync {ext : Extension}
    (hholds : ext.Holds env branch)
    (h : Pipe.RootsMatch env header ext.outputPmmr ext.rproofPmmr ext.kernelPmmr)
    : Pipe.RootsMatch env header ext.outputPmmr.sync ext.rproofPmmr.sync ext.kernelPmmr.sync where
  output := (PMMR.root_sync hholds.output.hashTidy env).trans h.output
  rproof := (PMMR.root_sync hholds.rproof.hashTidy env).trans h.rproof
  kernel := (PMMR.root_sync hholds.kernel.hashTidy env).trans h.kernel

structure Run (env : Env) (genesis : Block) (start : TxHashSet) (n : Nat) (c : Chain)
    (branch : List Block) : Prop where
  onBranch : OnBranch env genesis c branch
  heights : c.HeightsUpTo n
  rooted : Rooted env genesis start c.txhashset branch

theorem Run.submit (h : Run env genesis start n c branch)
    (hn : env.overflowChecks = true ∨ n + 1 < 2 ^ 64) (hreturns : (c.submit env s).1.Returns)
    : ∃ branch', Run env genesis start (n + 1) (c.submit env s).2 branch' := by
  have hwrap := h.heights.noWrap hn s.block
  rcases hres : c.submit env s with ⟨res, c'⟩
  rw [hres] at hreturns
  rcases h.onBranch.processBlockSingle hwrap hres hreturns
    with ⟨hsettled, q, isFork, headHeader, ext, htakes⟩ | ⟨hstore, htrees⟩
  . obtain ⟨ext₀, ext₁, sums, head, -, -, hresult⟩ := htakes.result h.onBranch (I := fun _ _ => True)
      ⟨trivial, fun _ _ _ _ _ _ _ => trivial, fun _ _ _ _ _ _ _ _ => trivial⟩
    have hgrows := hresult.grows htakes
    refine ⟨_, hresult.onBranch h.onBranch htakes hsettled, h.heights.grows hgrows, ?_⟩
    rw [hresult.chain]
    split
    . have hmatches := hresult.extended.matches htakes.height_ne_zero
      exact .isBlock s.block List.getLast?_concat htakes.height_ne_zero
        (rootsMatch_sync hresult.after hmatches.roots)
    . exact h.rooted
  . refine ⟨branch, h.onBranch.congr hstore htrees, ?_, ?_⟩
    . intro hash header hheader
      rw [hstore] at hheader
      have := h.heights hash header hheader
      omega
    . rw [htrees]
      exact h.rooted

theorem outputMmrSize_le_of_steps {branch : List BlockHeader} {n m : Nat} {header next : BlockHeader}
    (hsteps : ∀ i header next, n ≤ i → branch[i]? = some header → branch[i + 1]? = some next →
      header.outputMmrSize.toNat ≤ next.outputMmrSize.toNat)
    (hnm : n ≤ m) (hheader : branch[n]? = some header) (hnext : branch[m]? = some next)
    : header.outputMmrSize.toNat ≤ next.outputMmrSize.toNat := by
  induction m, hnm using Nat.le_induction generalizing next with
  | base =>
    rw [hheader, Option.some.injEq] at hnext
    rw [hnext]
  | succ m hnm ih =>
    obtain ⟨hlt, -⟩ := List.getElem?_eq_some_iff.mp hnext
    have hmid : branch[m]? = some branch[m] := List.getElem?_eq_getElem (by omega)
    exact (ih hmid).trans (hsteps m branch[m] next hnm hmid hnext)

structure HeadersAt (env : Env) (c : Chain) (branch : List BlockHeader) (head : BlockHeader) : Prop where
  ancestors : c.store.headers.Branch env branch
  isLast : branch.getLast? = some head
  isHead : c.store.head = some (.fromHeader env head)
  headerHash : ∀ n, getHeaderHash c.txhashset.headerPmmr (leafPos n) = branch[n]?.map (·.hash env)

structure AtHead (env : Env) (c : Chain) (branch : List BlockHeader) (head : BlockHeader) : Prop
    extends HeadersAt env c branch head where
  headerSize : c.txhashset.headerPmmr.unprunedSize = mmrSize (head.height.toNat + 1)
  outputSize : c.txhashset.outputPmmr.unprunedSize = head.outputMmrSize.toNat
  rproofSize : c.txhashset.rproofPmmr.unprunedSize = head.outputMmrSize.toNat
  kernelSize : c.txhashset.kernelPmmr.unprunedSize = head.kernelMmrSize.toNat

theorem OnBranch.atHead (h : OnBranch env genesis c branch)
    (hlast : branch.getLast? = some last)
    : AtHead env c (headersOf branch) last.header := by
  have hlength := h.main.length_eq hlast
  have hlast' := hlast
  rw [List.getLast?_eq_getElem?] at hlast'
  have hrecorded := h.main.recorded _ _ hlast'
  have hhead := h.head
  rw [hlast] at hhead
  have htake : branch.take (branch.length - 1 + 1) = branch := by
    rw [List.take_of_length_le (by omega)]
  refine ⟨⟨h.main.headers, ?_, hhead, ?_⟩, ?_, ?_, ?_, ?_⟩
  . simp [headersOf, hlast]
  . intro n
    rw [← insertionToPmmrIndex_succ]
    exact h.holds.tracks.getHeaderHash n
  . rw [← hlength, PMMR.unprunedSize, h.holds.header.lastPos]
    simp [headersOf]
  . rw [PMMR.unprunedSize, h.holds.output.lastPos, PMMR.length_leavesOf, hrecorded.output, htake]
  . rw [PMMR.unprunedSize, h.holds.rproof.lastPos, PMMR.length_leavesOf, List.length_map,
      hrecorded.output, htake]
  . rw [PMMR.unprunedSize, h.holds.kernel.lastPos, PMMR.length_leavesOf, hrecorded.kernel, htake]

theorem exists_run {powVerifier : BlockHeader → Bool} {archiveMode : Bool}
    {submissions : List Submission}
    (hstart : init env powVerifier archiveMode genesis = .ok c)
    (hheight : genesis.header.height = 0)
    (houtputs : genesis.header.outputMmrSize.toNat = mmrSize genesis.body.outputs.length)
    (hkernels : genesis.header.kernelMmrSize.toNat = mmrSize genesis.body.kernels.length)
    (hcalls : env.overflowChecks = true ∨ submissions.length < 2 ^ 64 - 1)
    (h : c.submitAll env submissions = some c')
    : ∃ branch, Run env genesis c.txhashset (0 + submissions.length) c' branch := by
  have hinit := onBranch_init hheight (.singleton houtputs hkernels) hstart
  have hrun : Run env genesis c.txhashset 0 c [genesis] := by
    refine ⟨hinit, ?_, .isGenesis rfl rfl⟩
    intro hash header hheader
    rw [hinit.tree.header, Option.map_eq_some_iff] at hheader
    obtain ⟨b, hb, rfl⟩ := hheader
    obtain ⟨-, rfl⟩ := eq_genesis_of_lookup_init hstart hb
    rw [hheight]
    exact Nat.le_refl 0
  exact submitAll_invariant (P := fun n c' => ∃ branch, Run env genesis c.txhashset n c' branch)
    (fun s m c₁ hm ⟨branch, hrun⟩ hreturns =>
      hrun.submit (hcalls.imp_right fun hlt => by omega) hreturns)
    ⟨[genesis], hrun⟩ h

theorem mountain_ranges_at_head {powVerifier : BlockHeader → Bool} {archiveMode : Bool}
    {submissions : List Submission}
    (hstart : init env powVerifier archiveMode genesis = .ok c)
    (hheight : genesis.header.height = 0)
    (houtputs : genesis.header.outputMmrSize.toNat = mmrSize genesis.body.outputs.length)
    (hkernels : genesis.header.kernelMmrSize.toNat = mmrSize genesis.body.kernels.length)
    (hcalls : env.overflowChecks = true ∨ submissions.length < 2 ^ 64 - 1)
    (h : c.submitAll env submissions = some c')
    : ∃ branch head,
        AtHead env c' branch head
          ∧
        (Pipe.RootsMatch env head c'.txhashset.outputPmmr c'.txhashset.rproofPmmr
            c'.txhashset.kernelPmmr
          ↔
        head.height ≠ 0
          ∨
        Pipe.RootsMatch env genesis.header c.txhashset.outputPmmr c.txhashset.rproofPmmr
          c.txhashset.kernelPmmr) := by
  obtain ⟨branch, hrun'⟩ := exists_run hstart hheight houtputs hkernels hcalls h
  obtain ⟨last, hlast⟩ := hrun'.onBranch.exists_getLast
  refine ⟨headersOf branch, last.header, hrun'.onBranch.atHead hlast, ?_⟩
  cases hrun'.rooted with
  | isGenesis hbranch htrees =>
    rw [hbranch] at hlast
    have hgenesis : genesis = last := Option.some.inj hlast
    rw [← hgenesis, htrees, hheight]
    simp
  | isBlock last' hlast' hheight' hroots =>
    rw [hlast, Option.some.injEq] at hlast'
    rw [hlast']
    exact ⟨fun _ => .inl hheight', fun _ => hroots⟩

end

open Sample in
theorem mountain_ranges_at_head_firstBlock
    : ∃ c,
        start.submitAll env [⟨clock, firstBlock, .none⟩] = some c
          ∧
        ∃ branch head,
          AtHead env c branch head
            ∧
          head.height = 1
            ∧
          Pipe.RootsMatch env head c.txhashset.outputPmmr c.txhashset.rproofPmmr
            c.txhashset.kernelPmmr := by
  let c := (start.submit env ⟨clock, firstBlock, .none⟩).2
  have hrun : start.submitAll env [⟨clock, firstBlock, .none⟩] = some c := by
    have hreturns : (start.submit env ⟨clock, firstBlock, .none⟩).1.Returns := by decide +kernel
    rw [submitAll, if_pos hreturns]
    rfl
  obtain ⟨branch, head, hhead, hroots⟩ := mountain_ranges_at_head init_start rfl rfl rfl
    (.inr (by decide)) hrun
  have hheight : head.height = 1 := by
    have htip : c.store.head.map (·.height) = some 1 := by decide +kernel
    rw [hhead.isHead] at htip
    exact Option.some.inj htip
  exact ⟨c, hrun, branch, head, hhead, hheight, hroots.mpr (.inl (by rw [hheight]; decide))⟩

-- the genesis block of the main network has no outputs, and a header that says otherwise
open Sample Genesis in
theorem genesis_main_roots_differ
    : ∃ c,
        init env (fun _ => true) false genesisMain = .ok c
          ∧
        c.submitAll env [] = some c
          ∧
        c.store.head = some (.fromHeader env genesisMain.header)
          ∧
        ¬ Pipe.RootsMatch env genesisMain.header c.txhashset.outputPmmr c.txhashset.rproofPmmr
            c.txhashset.kernelPmmr := by
  have hzero : genesisMain.header.height = 0 := rfl
  obtain ⟨c, hinit⟩ := init_of_empty env hzero rfl (fun _ => true) false
  have hon := onBranch_init rfl ⟨rfl, rfl⟩ hinit
  refine ⟨c, hinit, rfl, hon.head, ?_⟩
  intro hroots
  have hempty : c.txhashset.outputPmmr.lastPos = 0 := hon.holds.output.lastPos
  have hroot := hroots.output
  rw [PMMR.root, if_pos hempty, Outcome.ok.injEq] at hroot
  revert hroot
  decide

end Chain
end Epic
