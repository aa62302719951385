import Epic.Chain.HeadState
import Epic.Chain.TxHashSet.Index

/-!
This module contains the input bitmaps that are stored with the blocks: when they are the positions that
the inputs of a block spend on the chain that ends in the head.
-/

namespace Epic
namespace Chain

open Routine Pmmr

section

variable {env : Env} {genesis b : Block} {c c' : Chain} {branch q : List Block}

structure Current (env : Env) (genesis : Block) (c : Chain) (branch : List Block) : Prop where
  main : c.store.Branch env genesis branch
  head : c.store.head = branch.getLast?.map fun b => .fromHeader env b.header

theorem OnBranch.current (h : OnBranch env genesis c branch)
    : Current env genesis c branch := ⟨h.main, h.head⟩

theorem Current.eq_of_head (h : Current env genesis c branch)
    (hq : c.store.Branch env genesis q) (hlast : q.getLast? = some last)
    (hhead : c.store.head = some (.fromHeader env last.header))
    : q = branch := by
  have hsame := h.head.symm.trans hhead
  rw [Option.map_eq_some_iff] at hsame
  obtain ⟨b, hb, htip⟩ := hsame
  have hhash : b.hash env = last.hash env := congrArg Tip.lastBlockH htip
  have hlookup := h.main.blocks b (List.mem_of_getLast? hb)
  rw [hhash, hq.blocks last (List.mem_of_getLast? hlast)] at hlookup
  rw [← Option.some.inj hlookup] at hb
  exact h.main.eq_of_getLast hq hb hlast

def BitmapLaw (env : Env) (genesis : Block) (c : Chain) : Prop :=
  ∃ branch,
    Current env genesis c branch
      ∧
    ∀ n b, branch[n]? = some b →
      (c.store.batch.getBlockInputBitmap env (b.hash env)).1
        = some (spentPositions (commitsOf (branch.take (n + 1))) b)

-- What a block has to meet on top of a branch. If it does not become the head, the bitmap is built from
-- the index of another chain.
structure Traced (c : Chain) (branch q : List Block) (b : Block) : Prop where
  created : (commitsOf (q ++ [b])).Nodup
  spent : ∀ x ∈ b.body.inputs, x.commit ∈ commitsOf (q ++ [b])
  narrow : mmrSize (commitsOf (q ++ [b])).length < 2 ^ 32
  beside : ∀ head, c.store.head = some head → Pipe.hasMoreWork b.header head = false →
    ∀ x ∈ b.body.inputs, ∃ n : Nat,
      (commitsOf (q ++ [b]))[n]? = some x.commit ∧ (commitsOf branch)[n]? = some x.commit

structure Traceable (env : Env) (genesis : Block) (c : Chain) (b : Block) : Prop where
  height : c.NoWrap env b
  traced : ∀ branch q prev, Current env genesis c branch → c.store.Branch env genesis q →
    q.getLast? = some prev → b.header.prevHash = prev.hash env → Traced c branch q b

-- the bitmap of a block is right on its own branch
structure MappedBlock (env : Env) (store : ChainStore) (q : List Block) (b : Block) : Prop where
  nodup : (commitsOf q).Nodup
  bitmap : store.inputBitmaps.lookup (b.hash env) = some (spentPositions (commitsOf q) b)

structure Mapped (env : Env) (genesis : Block) (c : Chain) (branch : List Block) : Prop where
  onBranch : OnBranch env genesis c branch
  index : c.store.batch.Indexes (commitsOf branch)
  blocks : c.store.EachBlock env genesis (MappedBlock env c.store)

theorem Mapped.law (h : Mapped env genesis c branch)
    : BitmapLaw env genesis c := by
  refine ⟨branch, h.onBranch.current, fun n b hb => ?_⟩
  have hlookup := (h.blocks.of_branch h.onBranch.main hb).bitmap
  unfold Batch.getBlockInputBitmap
  rw [show c.store.batch.committed.inputBitmaps.lookup (b.hash env) = _ from hlookup]

theorem Mapped.bitmaps (h : Mapped env genesis c branch)
    : ∀ b ∈ branch, ∃ stored, c.store.inputBitmaps.lookup (b.hash env) = some stored := by
  intro b hb
  obtain ⟨n, hn⟩ := List.getElem?_of_mem hb
  exact ⟨_, (h.blocks.of_branch h.onBranch.main hn).bitmap⟩

structure Indexing (c : Chain) (done : List Block) (ext : Extension) : Prop where
  index : ext.batch.Indexes (commitsOf done)
  bitmaps : ext.batch.db.inputBitmaps = c.store.inputBitmaps

theorem Mapped.carries
    (h : Mapped env genesis c branch)
    (htakes : Takes env genesis c c' branch q b isFork headHeader ext)
    (hnodup : (commitsOf (q ++ [b])).Nodup)
    : Pipe.Carries env (c.started env b) headHeader branch q b
        fun done ext => Indexing c done ext ∧ ext.Holds env done where
  start := ⟨⟨h.index, rfl⟩, h.onBranch.holds⟩
  rewind i fb ext' rewindRmPos batch hfb hrewinds := by
    have hmain := htakes.joins.main
    obtain ⟨last, hlast⟩ := h.onBranch.exists_getLast
    have hhead := htakes.isHead
    rw [hlast] at hhead
    injection hhead with hhead
    subst hhead
    obtain ⟨hbatch, -⟩ := inputPosToRewind_eq_ok hmain.headers
      (fun b hb => h.bitmaps b (List.mem_of_mem_drop hb)) hfb hlast hrewinds.found
    have hsettled : (c.started env b).trees.Settled := h.onBranch.settled
    have hholds := Extension.Holds.rewind hsettled h.onBranch.holds hmain.recorded hfb
      (hmain.height hfb) hrewinds
    refine ⟨⟨?_, ?_⟩, hholds.1⟩
    . rw [hrewinds.state, hbatch]
      exact h.index.of_prefix (commitsOf_mono (List.take_prefix _ _))
    . rw [hrewinds.state, hbatch]
      rfl
  apply done fb ext ext' sums hinitial hext hextends := by
    obtain ⟨hindexing, hholds⟩ := hext
    have hnodup' := hnodup.sublist (commitsOf_mono hinitial).sublist
    have hholds' : Extension.Holds env done { ext with
        batch := ext.batch.saveBlockSums (fb.header.hash env) sums } := hholds
    obtain ⟨pos, p, -, hfollows⟩ := Extension.follows_applyBlock hextends.applied
    refine ⟨⟨?_, ?_⟩, hholds'.applyBlock hextends.applied⟩
    . exact Extension.indexes_applyBlock hholds' hindexing.index hnodup' hextends.applied
    . exact hfollows.batch.inputBitmaps.trans hindexing.bitmaps

theorem MappedBlock.mono {store store' : ChainStore} {bitmap : Bitmap} {fb : Block}
    (h : MappedBlock env store q fb) (hne : fb.hash env ≠ b.hash env)
    (hbitmaps : store'.inputBitmaps = store.inputBitmaps.insert (b.hash env) bitmap)
    : MappedBlock env store' q fb := by
  refine ⟨h.nodup, ?_⟩
  rw [hbitmaps, AList.lookup_insert_ne hne]
  exact h.bitmap

theorem Mapped.takes
    (h : Mapped env genesis c branch)
    (htakes : Takes env genesis c c' branch q b isFork headHeader ext) (htraced : Traced c branch q b)
    (hsettled : c'.Settled)
    : ∃ branch', Mapped env genesis c' branch' := by
  obtain ⟨ext₀, ext₁, sums, head, -, ⟨hindexing, -⟩, hresult⟩ :=
    htakes.result h.onBranch (h.carries htakes htraced.created)
  have hon := hresult.onBranch h.onBranch htakes hsettled
  have hgrows := hresult.grows htakes
  have hchain := hresult.chain
  cases hmore : Pipe.hasMoreWork b.header head with
  | true =>
    rw [if_pos hmore] at hon hchain
    have hbitmap := ext₁.batch.buildBlockInputBitmap_eq htraced.created htraced.narrow
      fun x hx => by
        obtain ⟨n, hn⟩ := List.getElem?_of_mem (htraced.spent x hx)
        exact ⟨n, hn, hindexing.index n x.commit hn⟩
    have hbitmaps : c'.store.inputBitmaps
        = c.store.inputBitmaps.insert (b.hash env) (ext₁.batch.buildBlockInputBitmap b) := by
      rw [hchain, ← hindexing.bitmaps]
      rfl
    refine ⟨q ++ [b], hon, ?_, ?_⟩
    . rw [hchain]
      exact hindexing.index
    . apply h.blocks.grows hgrows
      . intro branch' fb hne hfb
        exact hfb.mono hne hbitmaps
      . refine ⟨htraced.created, ?_⟩
        rw [hbitmaps, AList.lookup_insert, hbitmap]
  | false =>
    rw [if_neg (by simp [hmore])] at hon hchain
    -- the index is that of the other chain
    have hbitmap := (c.started env b).batch.buildBlockInputBitmap_eq htraced.created
      htraced.narrow fun x hx => by
        obtain ⟨n, hn, hn'⟩ := htraced.beside head hresult.oldHead hmore x hx
        exact ⟨n, hn, h.index n x.commit hn'⟩
    have hbitmaps : c'.store.inputBitmaps
        = c.store.inputBitmaps.insert (b.hash env)
          ((c.started env b).batch.buildBlockInputBitmap b) := by
      rw [hchain]
      rfl
    refine ⟨branch, hon, ?_, ?_⟩
    . rw [hchain]
      exact h.index
    . apply h.blocks.grows hgrows
      . intro branch' fb hne hfb
        exact hfb.mono hne hbitmaps
      . refine ⟨htraced.created, ?_⟩
        rw [hbitmaps, AList.lookup_insert, hbitmap]

theorem Mapped.congr (h : Mapped env genesis c branch) (hstore : c'.store = c.store)
    (htrees : c'.txhashset = c.txhashset)
    : Mapped env genesis c' branch := by
  refine ⟨h.onBranch.congr hstore htrees, ?_, ?_⟩
  . rw [hstore]
    exact h.index
  . rw [hstore]
    exact h.blocks

theorem Mapped.processBlockSingle (h : Mapped env genesis c branch)
    (htraceable : Traceable env genesis c b)
    (hreturns : (c.processBlockSingle env clock b opts).1.Returns)
    : ∃ branch', Mapped env genesis (c.processBlockSingle env clock b opts).2 branch' := by
  rcases h.onBranch.processBlockSingle htraceable.height rfl hreturns
    with ⟨hsettled, q, isFork, headHeader, ext, htakes⟩ | ⟨hstore, htrees⟩
  . obtain ⟨prev, hprev, hlink⟩ := htakes.parent
    have htraced := htraceable.traced branch q prev h.onBranch.current htakes.side hprev hlink
    exact h.takes htakes htraced hsettled
  . exact ⟨branch, h.congr hstore htrees⟩

theorem mapped_init {powVerifier : BlockHeader → Bool} {archiveMode : Bool}
    (hheight : genesis.header.height = 0) (hrecorded : Recorded [genesis] 0 genesis)
    (hinputs : genesis.body.inputs = []) (hnodup : (commitsOf [genesis]).Nodup)
    (h : init env powVerifier archiveMode genesis = .ok c)
    : Mapped env genesis c [genesis] := by
  have hon := onBranch_init hheight hrecorded h
  obtain ⟨sums, ext, hstarts⟩ := init_eq_ok h
  have hnew : Extension.Holds env []
      (.new ⟨.new, genesisBatch env genesis⟩ genesis.header) := TxHashSet.Holds.new env
  have hempty : (Extension.new ⟨.new, genesisBatch env genesis⟩ genesis.header).batch.Indexes
      (commitsOf []) := by
    intro n commit hn
    simp [commitsOf, outputsOf] at hn
  refine ⟨hon, ?_, ?_⟩
  . have hindex := Extension.indexes_applyBlock hnew hempty hnodup hstarts.applied
    rw [hstarts.store]
    exact hindex
  . intro hash b hb
    obtain ⟨rfl, rfl⟩ := eq_genesis_of_lookup_init h hb
    refine ⟨[b], hon.main, rfl, hnodup, ?_⟩
    obtain ⟨pos, p, -, hfollows⟩ := Extension.follows_applyBlock hstarts.applied
    have hbitmaps : c.store.inputBitmaps = (genesisBatch env b).db.inputBitmaps := by
      rw [hstarts.store]
      exact hfollows.batch.inputBitmaps
    rw [hbitmaps]
    simp [genesisBatch, Batch.saveHead, Batch.saveBodyHead, Batch.saveHeaderHead, Batch.saveBlock,
      Batch.buildAndStoreBlockInputBitmap, Batch.buildBlockInputBitmap, spentPositions, hinputs]

theorem stored_bitmaps_are_spent {powVerifier : BlockHeader → Bool} {archiveMode : Bool}
    (hstart : init env powVerifier archiveMode genesis = .ok c)
    (hheight : genesis.header.height = 0)
    (houtputs : genesis.header.outputMmrSize.toNat = mmrSize genesis.body.outputs.length)
    (hkernels : genesis.header.kernelMmrSize.toNat = mmrSize genesis.body.kernels.length)
    (hinputs : genesis.body.inputs = []) (hnodup : (genesis.body.outputs.map (·.commit)).Nodup)
    (hrun : ProcessRun env (Traceable env genesis) c c')
    : BitmapLaw env genesis c' := by
  have hnodup : (commitsOf [genesis]).Nodup := by
    simpa [commitsOf, outputsOf] using hnodup
  have hinit := mapped_init hheight (.singleton houtputs hkernels) hinputs hnodup hstart
  obtain ⟨branch, hmapped⟩ := hrun.invariant (P := fun c => ∃ branch, Mapped env genesis c branch)
    (by
      rintro c pool ⟨branch, h⟩
      exact ⟨branch, h.congr rfl rfl⟩)
    (by
      rintro clock c b opts htraceable ⟨branch, h⟩ hreturns
      exact h.processBlockSingle htraceable hreturns)
    ⟨[genesis], hinit⟩
  exact hmapped.law

-- a block on top of a branch that spends outputs of the branch and has more work than the head
abbrev Extends (env : Env) (genesis : Block) (c : Chain) (q : List Block) (b : Block) : Prop :=
  c.store.Branch env genesis q
    ∧ q.getLast?.map (·.hash env) = some b.header.prevHash
    ∧ b.header.height ≠ 0
    ∧ c.store.head.all (Pipe.hasMoreWork b.header ·) = true
    ∧ (commitsOf (q ++ [b])).Nodup
    ∧ (∀ x ∈ b.body.inputs, x.commit ∈ commitsOf (q ++ [b]))
    ∧ mmrSize (commitsOf (q ++ [b])).length < 2 ^ 32

theorem Extends.traceable (h : Extends env genesis c q b)
    : Traceable env genesis c b := by
  obtain ⟨hq, hlink, hwrap, hmore, hcreated, hspent, hnarrow⟩ := h
  obtain ⟨prev, hprev, hlink⟩ := Option.map_eq_some_iff.mp hlink
  refine ⟨fun _ _ _ _ => hwrap, fun branch q' prev' _ hq' hprev' hlink' => ?_⟩
  have hstored := hq'.blocks prev' (List.mem_of_getLast? hprev')
  rw [← hlink', ← hlink, hq.blocks prev (List.mem_of_getLast? hprev)] at hstored
  obtain rfl := Option.some.inj hstored
  obtain rfl := hq.eq_of_getLast hq' hprev hprev'
  refine ⟨hcreated, hspent, hnarrow, fun head hhead hless => ?_⟩
  rw [hhead, Option.all_some, hless] at hmore
  contradiction

theorem ProcessRun.single (hrun : ProcessRun env Q c₀ c) (hQ : Q c b)
    (hok : (c.processBlock env clock b opts).1.isOk = true)
    (hlength : (singles env clock c b opts).length = 1)
    : ProcessRun env Q c₀ (c.processBlock env clock b opts).2 := by
  refine .call clock b opts hrun (fun c₁ b₁ hmem => ?_) (Outcome.returns_of_isOk hok)
  obtain ⟨call, hcall⟩ := List.length_eq_one_iff.mp hlength
  have hfirst : (c, b) ∈ singles env clock c b opts := List.mem_cons_self
  rw [hcall, List.mem_singleton] at hmem hfirst
  rw [← hfirst, Prod.mk.injEq] at hmem
  obtain ⟨rfl, rfl⟩ := hmem
  exact hQ

end

namespace Sample

def output (features : OutputFeatures) (value blind : ℤ) : Output :=
  ⟨features, Transparent.encode (value, blind), .zero⟩

def kernel (features : KernelFeatures) (blind : ℤ) : TxKernel :=
  ⟨features, 0, 0, Transparent.encode (0, blind), .replicate 64 0⟩

def reward (blind : ℤ) : Output := output .coinbase 1457920000 blind

-- what the blocks make of the mountain ranges of a chain
def applied (c : Chain) (blocks : List Block) : Extension :=
  blocks.foldl (fun ext b => (Extension.applyBlock env b ext).2) (.new c.state c.genesis)

-- a block on top of the others, the number makes its proof of work distinct
def next (ext : Extension) (parent : Block) (n : UInt8) (body : TransactionBody) : Block :=
  mine ext ⟨{ parent.header with
    height := parent.header.height + 1
    prevHash := parent.hash env
    timestamp := .whole (60 * n.toNat) (by omega) (by have := n.toNat_lt; omega)
    pow := ⟨.fromNum (UInt64.ofNat (parent.header.height.toNat + 2)), 13, 0,
      .randomX ⟨List.replicate 31 0 ++ [n], rfl⟩, Pipe.Sample.zeroSeed⟩ }, body⟩

def process (c : Chain) (b : Block) : Chain := (c.processBlock env clock b .none).2

def main₁ : Block := next (applied start []) genesis 2 ⟨[], [reward 1], [kernel .coinbase 1]⟩

def main₂ : Block := next (applied start [main₁]) main₁ 3 ⟨[], [reward 2], [kernel .coinbase 2]⟩

def side₁ : Block :=
  next (applied start []) genesis 4
    ⟨[], [output .plain 0 5, reward 3], [kernel .plain 5, kernel .coinbase 3]⟩

-- spends the plain output of the block before it
def side₂ : Block :=
  next (applied start [side₁]) side₁ 5
    ⟨[⟨.plain, Transparent.encode (0, 5)⟩], [output .plain 0 6, reward 4],
      [kernel .plain 1, kernel .coinbase 4]⟩

def side₃ : Block :=
  next (applied start [side₁, side₂]) side₂ 6 ⟨[], [reward 7], [kernel .coinbase 7]⟩

def spent : Chain := process (process start side₁) side₂

-- the blocks of the side branch come after those of the main branch, which they outweigh in the end
def forked₂ : Chain := process (process start main₁) main₂
def forked₃ : Chain := process forked₂ side₁
def forked₄ : Chain := process forked₃ side₂
def forked : Chain := process forked₄ side₃

theorem extends_spent
    : Extends env genesis start [genesis] side₁
        ∧ (start.processBlock env clock side₁ .none).1.isOk = true
        ∧ (singles env clock start side₁ .none).length = 1
        ∧ Extends env genesis (process start side₁) [genesis, side₁] side₂
        ∧ ((process start side₁).processBlock env clock side₂ .none).1.isOk = true
        ∧ (singles env clock (process start side₁) side₂ .none).length = 1
        ∧ spent.store.Branch env genesis [genesis, side₁, side₂]
        ∧ spent.store.head = some (.fromHeader env side₂.header) := by
  decide +kernel

theorem processRun_spent
    : ProcessRun env (Traceable env genesis) start spent := by
  obtain ⟨h₁, hok₁, hlength₁, h₂, hok₂, hlength₂, -⟩ := extends_spent
  have hrun := ProcessRun.single .start h₁.traceable hok₁ hlength₁
  exact hrun.single h₂.traceable hok₂ hlength₂

theorem ok_forked
    : (start.processBlock env clock main₁ .none).1.isOk = true
        ∧ ((process start main₁).processBlock env clock main₂ .none).1.isOk = true
        ∧ (forked₂.processBlock env clock side₁ .none).1.isOk = true
        ∧ (forked₃.processBlock env clock side₂ .none).1.isOk = true
        ∧ (forked₄.processBlock env clock side₃ .none).1.isOk = true
        ∧ forked.store.Branch env genesis [genesis, side₁, side₂, side₃]
        ∧ forked.store.head = some (.fromHeader env side₃.header)
        ∧ (forked.store.batch.getBlockInputBitmap env (side₂.hash env)).1 = some ∅
        ∧ spentPositions (commitsOf [genesis, side₁, side₂]) side₂ = {1} := by
  decide +kernel

theorem processRun_process {c c' : Chain} {b : Block}
    (h : ProcessRun env (fun _ _ => True) c c')
    (hok : (c'.processBlock env clock b .none).1.isOk = true)
    : ProcessRun env (fun _ _ => True) c (process c' b) :=
  .call clock b .none h (fun _ _ _ => trivial) (Outcome.returns_of_isOk hok)

theorem processRun_forked
    : ProcessRun env (fun _ _ => True) start forked := by
  obtain ⟨h₁, h₂, h₃, h₄, h₅, -⟩ := ok_forked
  have hrun₂ := processRun_process (processRun_process .start h₁) h₂
  exact processRun_process (processRun_process (processRun_process hrun₂ h₃) h₄) h₅

end Sample

open Sample in
theorem stored_bitmaps_are_spent_side₂
    : ProcessRun env (Traceable env Sample.genesis) start spent
        ∧
      BitmapLaw env Sample.genesis spent
        ∧
      spentPositions (commitsOf [Sample.genesis, side₁, side₂]) side₂ = {1} :=
  ⟨processRun_spent, stored_bitmaps_are_spent init_start rfl rfl rfl rfl (by decide) processRun_spent,
    by decide +kernel⟩

-- The bitmap of a block is built from the index of the main branch, where its input does not exist. It is
-- not built again when its branch becomes the main one.
open Sample in
theorem side_block_bitmap_empty
    : ProcessRun env (fun _ _ => True) start forked ∧ ¬ BitmapLaw env Sample.genesis forked := by
  obtain ⟨-, -, -, -, -, hside, hhead, hstored, hspent⟩ := ok_forked
  refine ⟨processRun_forked, ?_⟩
  rintro ⟨branch, hcurrent, hbitmaps⟩
  have hbranch := hcurrent.eq_of_head hside rfl hhead
  subst hbranch
  have hbitmap := hbitmaps 2 side₂ rfl
  rw [hstored] at hbitmap
  have hempty := (Option.some.inj hbitmap).trans hspent
  revert hempty
  decide

end Chain
end Epic
