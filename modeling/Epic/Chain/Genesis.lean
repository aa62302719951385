import Epic.Chain.Run
import Epic.Chain.TxHashSet.Apply

/-!
This module contains the state of a chain that holds nothing but its genesis block.
-/

namespace Epic

open Routine

namespace Chain

def genesisBatch (env : Env) (genesis : Block) : Batch :=
  ((ChainStore.new.batch.saveBlockHeader env genesis.header).saveBlock env genesis).saveHead
    (.fromHeader env genesis.header)

structure Starts (env : Env) (genesis : Block) (c : Chain) (sums : BlockSums) (ext : Extension)
    : Prop where
  summed : genesisSums env genesis = .ok sums
  applied : Extension.applyBlock env genesis
      (.new ⟨.new, genesisBatch env genesis⟩ genesis.header)
    = (.ok (), ext)
  frame : (genesisBatch env genesis).Frame ext.batch
  store : c.store = ((ext.batch.saveBlockSums (genesis.hash env) sums).saveSyncHead
    (.fromHeader env genesis.header)).db
  txhashset : c.txhashset = ext.sync .new
  orphans : c.orphans = .new

theorem headHeader_genesisBatch (env : Env) (genesis : Block)
    : (genesisBatch env genesis).headHeader = .ok genesis.header := by
  simp [genesisBatch, Batch.headHeader, Batch.head, Batch.saveHead, Batch.saveBodyHead,
    Batch.saveHeaderHead, Batch.saveBlock, Batch.buildAndStoreBlockInputBitmap,
    Batch.saveBlockHeader, Batch.getBlockHeader, HeaderDb.getBlockHeader,
    HeaderDb.saveBlockHeader, Outcome.okOr, Tip.fromHeader]

theorem init_eq_ok {env : Env} {powVerifier : BlockHeader → Bool} {archiveMode : Bool}
    {genesis : Block} {c : Chain} (h : init env powVerifier archiveMode genesis = .ok c)
    : ∃ sums ext, Starts env genesis c sums ext := by
  unfold init at h
  split at h
  . next st hres =>
    injection h with h
    rw [← h]
    obtain ⟨⟨⟩, st₁, hsave, hrest⟩ := bind_eq_ok.mp hres
    rw [modify_eq_ok] at hsave
    have hst₁ : st₁ = ⟨.new, genesisBatch env genesis⟩ := hsave.symm
    subst hst₁
    obtain ⟨sums, st₂, hsums, hrest⟩ := bind_eq_ok.mp hrest
    rw [lift_eq_ok] at hsums
    obtain ⟨hsums, rfl⟩ := hsums
    obtain ⟨⟨⟩, st₃, hextending, hsync⟩ := bind_eq_ok.mp hrest
    rw [modify_eq_ok] at hsync
    obtain ⟨header, ext, hheader, hinner, hst₃⟩ := Pipe.extending_eq_ok hextending
    rw [headHeader_genesisBatch] at hheader
    injection hheader with hheader
    subst hheader
    obtain ⟨⟨⟩, ext₁, happlied, hvalid⟩ := bind_eq_ok.mp hinner
    obtain ⟨⟨⟩, ext₂, hroots, hsizes⟩ := bind_eq_ok.mp hvalid
    simp only [Extension.validateRoots, query_eq_ok] at hroots
    simp only [Extension.validateSizes, query_eq_ok] at hsizes
    obtain ⟨-, rfl⟩ := hroots
    obtain ⟨-, rfl⟩ := hsizes
    have hrollback : ext₁.rollback = false := by
      obtain ⟨pos, p, -, hfollows⟩ := Extension.follows_applyBlock happlied
      exact hfollows.rollback
    rw [hrollback] at hst₃
    have hsettled : TxHashSet.new.Settled := ⟨.new _, .new _, .new _, .new _, .new _⟩
    have hnew : Extension.Pending ⟨.new, genesisBatch env genesis⟩
        (.new ⟨.new, genesisBatch env genesis⟩ genesis.header) := .new hsettled genesis.header
    have hpending := Extension.preserves_applyBlock env genesis _ hnew
    rw [happlied] at hpending
    refine ⟨sums, ext₁, hsums, happlied, hpending.batch, ?_, ?_, rfl⟩
    . rw [← hsync, ← hst₃]
      rfl
    . rw [← hsync, ← hst₃]
      rfl
  . contradiction
  . contradiction
  . contradiction

theorem init_of_empty (env : Env) {genesis : Block} (hheight : genesis.header.height = 0)
    (hbody : genesis.body = .empty) (powVerifier : BlockHeader → Bool) (archiveMode : Bool)
    : ∃ c, init env powVerifier archiveMode genesis = .ok c := by
  let st : ChainState := ⟨.new, genesisBatch env genesis⟩
  obtain ⟨p, hpush⟩ : ∃ p, PMMR.push env genesis.header (.new false) = (.ok 1, p) := ⟨_, rfl⟩
  let ext : Extension := { Extension.new st genesis.header with headerPmmr := p }
  have happly : Extension.applyBlock env genesis (.new st genesis.header) = (.ok (), ext) := by
    unfold Extension.applyBlock
    rw [hbody]
    refine bind_eq_ok.mpr ⟨(), ext, ?_, rfl⟩
    exact bind_eq_ok.mpr ⟨1, ext, Extension.onHeader_eq_ok.mpr ⟨p, hpush, rfl⟩, rfl⟩
  have hinner : applyGenesis env genesis (.new st genesis.header) = (.ok (), ext) := by
    refine bind_eq_ok.mpr ⟨(), ext, happly, bind_eq_ok.mpr ⟨(), ext, ?_, ?_⟩⟩
    . exact query_eq_ok.mpr ⟨if_pos hheight, rfl⟩
    . exact query_eq_ok.mpr ⟨if_pos hheight, rfl⟩
  have hextending : extending (applyGenesis env genesis) st = (.ok (), ⟨ext.sync .new, ext.batch⟩) := by
    rw [Pipe.extending_of_headHeader (headHeader_genesisBatch env genesis), hinner]
    rfl
  have hsums : genesisSums env genesis = .ok ⟨commitToZeroValue, commitToZeroValue⟩ := by
    unfold genesisSums
    rw [hbody]
    rfl
  have hsetup : ∃ st', setupHead env genesis ⟨.new, ChainStore.new.batch⟩ = (.ok (), st') :=
    ⟨_, bind_eq_ok.mpr ⟨(), st, rfl, bind_eq_ok.mpr ⟨_, st, lift_eq_ok.mpr ⟨hsums, rfl⟩,
      bind_eq_ok.mpr ⟨(), _, hextending, rfl⟩⟩⟩⟩
  obtain ⟨st', hst'⟩ := hsetup
  unfold init
  rw [hst']
  exact ⟨_, rfl⟩

end Chain
end Epic
