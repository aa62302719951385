import Epic.Chain.Pipe.Schedule
import Epic.Chain.Run

/-!
This module contains what is left of a block that the chain rejects.
-/

namespace Epic

namespace OrphanBlockPool

theorem length_insert_le {α β : Type} [DecidableEq α] (t : AList fun _ : α => β) (a : α) (b : β)
    : (t.insert a b).entries.length ≤ t.entries.length + 1 := by
  rw [AList.entries_insert]
  rw [List.length_cons]
  have := (List.kerase_sublist a t.entries).length_le
  omega

theorem lookup_add {pool : OrphanBlockPool}
    (hlen : pool.len < maxOrphanSize) (hash : Hash)
    : (pool.add env now orphan).orphans.lookup hash
        =
      if hash = orphan.block.hash env then some orphan else pool.orphans.lookup hash := by
  have hle := length_insert_le pool.orphans (orphan.block.hash env) orphan
  unfold add
  dsimp only
  rw [if_neg (by unfold len at *; dsimp only; omega)]
  dsimp only
  split
  . next heq =>
    rw [heq]
    exact AList.lookup_insert pool.orphans
  . next hne => exact AList.lookup_insert_ne hne

end OrphanBlockPool

namespace Chain

def keepOrphan (env : Env) (clock : Clock) (c : Chain) (b : Block) (opts : Options) (e : ErrorKind)
    : OrphanBlockPool :=
  if e = .orphan then c.orphans.add env clock.instant ⟨b, opts, clock.instant⟩ else c.orphans

theorem rejectBlock_eq_err {c c' : Chain} (h : c.rejectBlock env clock b opts e₀ = (.err e, c'))
    : c' = { c with orphans := c.keepOrphan env clock b opts e } := by
  unfold rejectBlock at h
  split at h
  . simp only [Prod.mk.injEq, Outcome.err.injEq] at h
    simp [← h.1, ← h.2, keepOrphan]
  . simp only [Prod.mk.injEq, Outcome.err.injEq] at h
    simp [← h.1, ← h.2, keepOrphan]
  . simp only [Prod.mk.injEq, Outcome.err.injEq] at h
    simp [← h.1, ← h.2, keepOrphan]

theorem processBlockSingle_eq_err {c c' : Chain} (hc : c.Settled)
    (h : c.processBlockSingle env clock b opts = (.err e, c'))
    : ∃ trees, trees.Settled ∧ trees.Same c.txhashset
        ∧
      c' = { c with txhashset := trees, orphans := c.keepOrphan env clock b opts e } := by
  unfold processBlockSingle at h
  split at h
  . next head hhead =>
    split at h
    . simp at h
    . next e₀ st hres =>
      simp only [Batch.head, Outcome.okOr_eq_ok] at hhead
      have hunseen : Pipe.Unseen c.state st := Pipe.unseen_processBlock hc hhead hres
      exact ⟨st.trees, hunseen.settled, hunseen.same, rejectBlock_eq_err h⟩
    . simp at h
    . simp at h
  . next e₀ hhead =>
    simp only [Prod.mk.injEq, Outcome.err.injEq] at h
    have hne : e ≠ .orphan := by
      intro he
      rw [h.1, he] at hhead
      unfold Batch.head Outcome.okOr at hhead
      split at hhead
      . simp at hhead
      . simp [Batch.notFound] at hhead
    refine ⟨c.txhashset, hc, .refl _, ?_⟩
    rw [← h.2]
    unfold keepOrphan
    rw [if_neg hne]
  . simp at h
  . simp at h

theorem rejected_leaves_no_trace {env : Env} {clock : Clock} {c c' : Chain} {b : Block}
    {opts : Options} {e : ErrorKind} (hc : c.Settled)
    (h : c.processBlockSingle env clock b opts = (.err e, c'))
    : c'.store = c.store
        ∧
      c'.txhashset.Same c.txhashset
        ∧
      (e ≠ .orphan → c'.orphans = c.orphans)
        ∧
      (e = .orphan
        → c'.orphans = c.orphans.add env clock.instant ⟨b, opts, clock.instant⟩)
        ∧
      (e = .orphan → c.orphans.len < OrphanBlockPool.maxOrphanSize
        → ∀ hash, c'.orphans.orphans.lookup hash
            = if hash = b.hash env then some ⟨b, opts, clock.instant⟩
              else c.orphans.orphans.lookup hash) := by
  obtain ⟨trees, -, hsame, hc'⟩ := processBlockSingle_eq_err hc h
  rw [hc']
  refine ⟨rfl, hsame, ?_, ?_, ?_⟩
  . intro hne
    exact if_neg hne
  . intro he
    exact if_pos he
  . intro he hlen hash
    have hadd : c.keepOrphan env clock b opts e = _ := if_pos he
    dsimp only
    rw [hadd]
    exact OrphanBlockPool.lookup_add hlen hash

namespace Sample

open Pipe.Sample (emptyBottles)

def env : Env := Pipe.Sample.env emptyBottles

def genesis : Block := ⟨Pipe.Sample.genesis emptyBottles, .empty⟩

def clock : Clock := ⟨1000 * 10 ^ 9, 0⟩

def empty : Chain := ⟨.new, .new, .new, fun _ => true, false, genesis.header⟩

def startOf (env : Env) (genesis : Block) : Chain :=
  match init env empty.powVerifier empty.archiveMode genesis with
  | .ok c => c
  | _ => empty

theorem init_startOf {env : Env} {genesis : Block}
    (hok : (init env empty.powVerifier empty.archiveMode genesis).isOk = true)
    : init env empty.powVerifier empty.archiveMode genesis = .ok (startOf env genesis) := by
  unfold startOf
  split
  . next h => exact h
  . next hne =>
    cases h : init env empty.powVerifier empty.archiveMode genesis with
    | ok c => exact absurd h (hne c)
    | err e => simp [h, Outcome.isOk] at hok
    | panic => simp [h, Outcome.isOk] at hok
    | hang => simp [h, Outcome.isOk] at hok

def start : Chain := startOf env genesis

theorem init_start
    : init env empty.powVerifier empty.archiveMode genesis = .ok start := init_startOf (by decide)

theorem settled_start
    : start.Settled := settled_init init_start

-- the roots and sizes that the mountain ranges have before and after a block
def mine (ext : Extension) (b : Block) : Block :=
  let ext' := (Extension.applyBlock env b ext).2
  let root := fun {E : Type} (p : PMMR E) =>
    match (p.root env : Outcome ErrorKind Hash) with
    | .ok hash => hash
    | _ => zeroHash
  { b with header := { b.header with
    prevRoot := root ext.headerPmmr
    outputRoot := root ext'.outputPmmr
    rangeProofRoot := root ext'.rproofPmmr
    kernelRoot := root ext'.kernelPmmr
    outputMmrSize := UInt64.ofNat ext'.outputPmmr.lastPos
    kernelMmrSize := UInt64.ofNat ext'.kernelPmmr.lastPos } }

def coinbase : Output := ⟨.coinbase, Transparent.encode (1457920000, 1), .zero⟩

def coinbaseKernel : TxKernel := ⟨.coinbase, 0, 0, Transparent.encode (0, 1), .replicate 64 0⟩

def minedProof : Proof := .randomX ⟨List.replicate 31 0 ++ [2], by decide⟩

def firstBlock : Block :=
  mine (.new start.state genesis.header)
    ⟨Pipe.Sample.child emptyBottles minedProof emptyBottles, [], [coinbase], [coinbaseKernel]⟩

-- refused when its outputs and kernels have been applied
def wrongRoot : Block := { firstBlock with header := { firstBlock.header with kernelRoot := zeroHash } }

-- blocks that differ in the version, with a predecessor that is not known
def stray (n : Nat) : Block :=
  { genesis with header := { genesis.header with
    version := UInt16.ofNat n
    height := 2
    prevHash := ⟨[1]⟩ } }

theorem hash_stray_inj (hn : n < 256) (hm : m < 256)
    (h : (stray n).hash env = (stray m).hash env)
    : n = m := by
  have hbytes := Pipe.Sample.injective_blake2b emptyBottles h
  simp only [BlockHeader.write, List.append_assoc] at hbytes
  have hversion := List.append_cancel_right hbytes
  simp only [stray, Ser.writeU16, Bytes.beBytes, UInt16.toNat_ofNat', List.nil_append, List.cons_append,
    List.cons.injEq, and_true] at hversion
  have hlast := congrArg UInt8.toNat hversion.2
  simp only [UInt8.toNat_ofNat'] at hlast
  omega

def fullPool : OrphanBlockPool where
  orphans := {
    entries := (List.range 200).map fun n => ⟨(stray n).hash env, ⟨stray n, .none, 0⟩⟩
    nodupKeys := by
      rw [List.NodupKeys, List.keys, List.map_map]
      apply List.Nodup.map_on
      . intro n hn m hm h
        rw [List.mem_range] at hn hm
        exact hash_stray_inj (by omega) (by omega) h
      . exact List.nodup_range }
  heightIdx := AList.singleton 2 ((List.range 200).map fun n => (stray n).hash env)
  evicted := 0

def crowded : Chain := { start with orphans := fullPool }

end Sample

open Sample in
theorem rejected_leaves_no_trace_wrongRoot
    : ∃ c', start.processBlockSingle env clock wrongRoot .none = (.err (.other .invalidRoot), c')
        ∧
      c'.store = start.store
        ∧
      c'.txhashset.Same start.txhashset
        ∧
      c'.orphans = start.orphans := by
  have h : start.processBlockSingle env clock wrongRoot .none
      = (.err (.other .invalidRoot), (start.processBlockSingle env clock wrongRoot .none).2) := by
    apply Prod.ext
    . decide +kernel
    . rfl
  obtain ⟨hstore, hsame, hother, -⟩ := rejected_leaves_no_trace settled_start h
  exact ⟨_, h, hstore, hsame, hother (by decide)⟩

-- the pool holds 200 blocks of one height, one more and it drops that height
open Sample in
theorem orphan_evicts_other
    : crowded.orphans.contains ((stray 0).hash env) = true
        ∧
      (crowded.processBlockSingle env clock (stray 200) .none).1 = .err .orphan
        ∧
      (crowded.processBlockSingle env clock (stray 200) .none).2.orphans.contains
        ((stray 0).hash env) = false := by
  decide +kernel

end Chain
end Epic
