import Epic.Chain.TxHashSet.Utxo
import Epic.Chain.TxHashSet.Validate
import Epic.Core.MerkleProof
import Epic.Core.Pmmr.Reference

/-!
This module contains what the validation of a chain state says about files that came from elsewhere. The
hashes that can be read on the way from a leaf to its peak are those that the root commits to. The data
files are compared with none of them.
-/

namespace Epic

open Pmmr

namespace PMMR

variable {T E : Type} [PMMRable T E] {env : Env} {p q : PMMR E} {elmts : List T}

structure Anchored (p : PMMR E) (pos : Nat) : Prop where
  leaf : (p.getFromFile pos).isSome = true
  branch : ∀ x ∈ familyBranch pos p.lastPos,
    (p.getFromFile x.1).isSome = true ∧ (p.getFromFile x.2).isSome = true
  peaks : ∀ x ∈ Pmmr.peaks p.lastPos, (p.getFromFile x).isSome = true

def SameWidths (p q : PMMR E) : Prop :=
  ∀ pos hash hash', p.getFromFile pos = some hash → q.getFromFile pos = some hash' →
    hash.bytes.length = hash'.bytes.length

def Agree (p q : PMMR E) (pos : Nat) : Prop := p.getFromFile pos = q.getFromFile pos

theorem le_of_getFromFile {pos : Nat} {hash : Hash} (h : p.getFromFile pos = some hash)
    : pos ≤ p.lastPos := by
  unfold getFromFile at h
  split at h
  . contradiction
  . omega

theorem backend_getFromFile {pos : Nat} {hash : Hash} (h : p.getFromFile pos = some hash)
    : p.backend.getFromFile pos = some hash := by
  have hle := le_of_getFromFile h
  rwa [getFromFile, if_neg (by omega)] at h

theorem peaks_eq_filterMap (hlast : p.lastPos = mmrSize n)
    : p.peaks = (Pmmr.peaks (mmrSize n)).filterMap p.getFromFile := by
  rw [peaks, hlast]
  apply List.filterMap_congr
  intro x hx
  obtain ⟨i, k, hle, rfl⟩ := exists_of_mem_peaks hx
  rw [getFromFile, hlast, if_neg (by omega)]

theorem parent_of_validate (hvalid : p.validate env = .ok ()) {i k : Nat} {hash left right : Hash}
    (hhash : p.getFromFile (nodeAt i (k + 1)) = some hash)
    (hleft : p.getFromFile (nodeAt (2 * i) k) = some left)
    (hright : p.getFromFile (nodeAt (2 * i + 1) k) = some right)
    : hash = hashWithIndex env (left.write ++ right.write) (nodeAt i (k + 1) - 1) := by
  have hle := le_of_getFromFile hhash
  have hpos := nodeAt_pos i (k + 1)
  have hheight := bintreePostorderHeight_nodeAt i (k + 1)
  have hmem : nodeAt i (k + 1) ∈ List.range' 1 p.lastPos := by
    rw [List.mem_range'_1]
    omega
  have hget : p.getHash (nodeAt i (k + 1)) = some hash := by
    have hinner : isLeaf (nodeAt i (k + 1)) = false := by
      simp [isLeaf, hheight]
    rw [getHash, if_neg (by omega), hinner]
    exact backend_getFromFile hhash
  have hleftPos : nodeAt i (k + 1) - 2 ^ (k + 1) = nodeAt (2 * i) k := by
    rw [nodeAt_left, Nat.pow_succ, Nat.mul_comm (2 ^ k), Nat.add_sub_cancel]
  have hrightPos : nodeAt i (k + 1) - 1 = nodeAt (2 * i + 1) k := by
    rw [nodeAt_right, Nat.add_sub_cancel]
  have hparent := Outcome.forEach_eq_ok.mp hvalid _ hmem
  simp only [validateParent, hheight, hget, hleftPos, hrightPos, hleft, hright, gt_iff_lt, Nat.succ_pos,
    if_true, Outcome.require_eq_ok] at hparent
  rw [hrightPos]
  exact hparent.symm

theorem write_append_inj (hinj : Function.Injective env.blake2b) {left left' right right' : Hash}
    (hlength : left.bytes.length = left'.bytes.length)
    (h : hashWithIndex env (left.write ++ right.write) index
      = hashWithIndex env (left'.write ++ right'.write) index)
    : left = left' ∧ right = right' := by
  obtain ⟨hleft, hright⟩ := List.append_inj (hashWithIndex_inj hinj h) hlength
  exact ⟨congrArg Hash.mk hleft, congrArg Hash.mk hright⟩

theorem Agree.exists_some (h : p.Agree q pos) (hsome : (p.getFromFile pos).isSome = true)
    : ∃ hash, p.getFromFile pos = some hash ∧ q.getFromFile pos = some hash := by
  obtain ⟨hash, hread⟩ := Option.isSome_iff_exists.mp hsome
  exact ⟨hash, hread, by rw [← h, hread]⟩

theorem agree_of_bag_eq (hinj : Function.Injective env.blake2b) (hwidths : p.SameWidths q) {size : Nat}
    {positions : List Nat} (hp : ∀ x ∈ positions, (p.getFromFile x).isSome = true)
    (hq : ∀ x ∈ positions, (q.getFromFile x).isSome = true)
    (hbag : bag env size (positions.filterMap p.getFromFile)
      = bag env size (positions.filterMap q.getFromFile))
    : ∀ x ∈ positions, p.Agree q x := by
  have hread {r : PMMR E} (hr : ∀ x ∈ positions, (r.getFromFile x).isSome = true) (x : Nat)
      (hx : x ∈ positions) : r.getFromFile x = some ((r.getFromFile x).getD zeroHash) := by
    obtain ⟨hash, hhash⟩ := Option.isSome_iff_exists.mp (hr x hx)
    rw [hhash, Option.getD_some]
  rw [List.filterMap_eq_map_iff_forall_eq_some.mpr (hread hp),
    List.filterMap_eq_map_iff_forall_eq_some.mpr (hread hq), MMR.bag_eq (T := TxKernel),
    MMR.bag_eq (T := TxKernel)] at hbag
  have hpeaks := (MMR.reference TxKernel env).peaks_eq_of_bag_eq
    (R := fun hash hash' => hash.bytes.length = hash'.bytes.length)
    (fun _ _ _ _ _ hlength hnode => write_append_inj hinj hlength hnode) ?_ hbag
  . intro x hx
    rw [Agree, hread hp x hx, hread hq x hx, List.map_inj_left.mp hpeaks x hx]
  . rw [List.forall₂_map_left_iff, List.forall₂_map_right_iff, List.forall₂_same]
    exact fun x hx => hwidths x _ _ (hread hp x hx) (hread hq x hx)

section

variable (hinj : Function.Injective env.blake2b) (hwidths : p.SameWidths q)
  (hvalid : p.validate env = .ok ()) (hlast : p.lastPos = q.lastPos) (hq : q.Grown env elmts)

include hinj hwidths hvalid hq

theorem Agree.children {i k : Nat} (hparent : p.Agree q (nodeAt i (k + 1)))
    (hsome : (p.getFromFile (nodeAt i (k + 1))).isSome = true)
    (hleft : (p.getFromFile (nodeAt (2 * i) k)).isSome = true)
    (hright : (p.getFromFile (nodeAt (2 * i + 1) k)).isSome = true)
    : p.Agree q (nodeAt (2 * i) k) ∧ p.Agree q (nodeAt (2 * i + 1) k) := by
  obtain ⟨hash, hread, hread'⟩ := hparent.exists_some hsome
  obtain ⟨left, hleft⟩ := Option.isSome_iff_exists.mp hleft
  obtain ⟨right, hright⟩ := Option.isSome_iff_exists.mp hright
  have hle : nodeAt i (k + 1) ≤ mmrSize elmts.length := by
    rw [← hq.growing.aligned.lastPos]
    exact le_of_getFromFile hread'
  obtain ⟨left', right', hleft', hright', hhash⟩ := hq.parent i k (nodeAt_le_mmrSize_iff.mp hle)
  have hlt := nodeAt_left i k
  have hlt' := nodeAt_right i k
  rw [← hq.getFromFile_eq (by omega)] at hleft' hright' hhash
  have hequal := parent_of_validate hvalid hread hleft hright
  rw [hread', Option.some.injEq, hequal] at hhash
  obtain ⟨rfl, rfl⟩ := write_append_inj hinj (hwidths _ _ _ hleft hleft') hhash
  exact ⟨hleft.trans hleft'.symm, hright.trans hright'.symm⟩

theorem Agree.child (hparent : p.Agree q (nodeAt (i / 2) (k + 1)))
    (hsome : (p.getFromFile (nodeAt (i / 2) (k + 1))).isSome = true)
    (hself : (p.getFromFile (nodeAt i k)).isSome = true)
    (hsibling : (p.getFromFile (nodeAt (siblingOf i) k)).isSome = true)
    : p.Agree q (nodeAt i k) := by
  rcases Nat.even_or_odd' i with ⟨j, rfl | rfl⟩
  . have hhalf : 2 * j / 2 = j := by omega
    have hother : siblingOf (2 * j) = 2 * j + 1 := if_neg (by omega)
    rw [hhalf] at hparent hsome
    rw [hother] at hsibling
    exact (Agree.children hinj hwidths hvalid hq hparent hsome hself hsibling).1
  . have hhalf : (2 * j + 1) / 2 = j := by omega
    have hother : siblingOf (2 * j + 1) = 2 * j := if_pos (by omega)
    rw [hhalf] at hparent hsome
    rw [hother] at hsibling
    exact (Agree.children hinj hwidths hvalid hq hparent hsome hsibling hself).2

theorem agree_of_branch (hle : nodeAt (m / 2 ^ k) k ≤ mmrSize elmts.length)
    (hfuel : mmrSize elmts.length < nodeAt (m / 2 ^ k) k + fuel)
    (hpeaks : ∀ x ∈ Pmmr.peaks (mmrSize elmts.length), p.Agree q x)
    (hsome : (p.getFromFile (nodeAt (m / 2 ^ k) k)).isSome = true)
    (hbranch : ∀ x ∈ familyBranch.go m (mmrSize elmts.length) fuel k (nodeAt (m / 2 ^ k) k),
      (p.getFromFile x.1).isSome = true ∧ (p.getFromFile x.2).isSome = true)
    : p.Agree q (nodeAt (m / 2 ^ k) k) := by
  induction fuel generalizing k with
  | zero => omega
  | succ fuel ih =>
    have hlt := nodeAt_lt_parent (m / 2 ^ k) k
    rw [← DyadicBlock.div_two_pow_succ] at hlt
    rw [familyBranch_go_nodeAt] at hbranch
    by_cases hparent : nodeAt (m / 2 ^ (k + 1)) (k + 1) ≤ mmrSize elmts.length
    . rw [if_pos hparent, List.forall_mem_cons] at hbranch
      obtain ⟨⟨hsome', hsibling⟩, hbranch⟩ := hbranch
      have hagree := ih hparent (by omega) hsome' hbranch
      rw [DyadicBlock.div_two_pow_succ] at hagree hsome'
      exact Agree.child hinj hwidths hvalid hq hagree hsome' hsome hsibling
    . refine hpeaks _ ((nodeAt_mem_peaks_iff hle).mpr ?_)
      rw [← DyadicBlock.div_two_pow_succ]
      omega

include hlast

theorem Anchored.agree {root : Hash} {n : Nat} (h : p.Anchored (leafPos n))
    (hroot : (p.root env : Outcome ErrorKind Hash) = .ok root)
    (hroot' : (q.root env : Outcome ErrorKind Hash) = .ok root)
    : p.Agree q (leafPos n) := by
  have hsize := hq.growing.aligned.lastPos
  obtain ⟨hash, hread⟩ := Option.isSome_iff_exists.mp h.leaf
  have hle := le_of_getFromFile hread
  have hmap : peakMapHeight (leafPos n - 1) = (n, 0) :=
    peakMapHeight_mmrSize_add (r := 0) (mmrSize_lt_succ n)
  have hstart : leafPos n = nodeAt (n / 2 ^ 0) 0 := by simp [nodeAt_zero]
  have hlastPos : p.lastPos ≠ 0 := by
    unfold leafPos at hle
    omega
  have hpeaks : ∀ x ∈ Pmmr.peaks (mmrSize elmts.length), p.Agree q x := by
    have hbag := (root_eq_ok hlastPos).mp hroot
    have hbag' := (root_eq_ok (hlast ▸ hlastPos)).mp hroot'
    rw [peaks_eq_filterMap (hlast.trans hsize), hlast] at hbag
    rw [peaks_eq_filterMap hsize] at hbag'
    refine agree_of_bag_eq hinj hwidths ?_ ?_ (hbag.trans hbag'.symm)
    . intro x hx
      apply h.peaks
      rwa [hlast, hsize]
    . intro x hx
      obtain ⟨i, k, hle, rfl⟩ := exists_of_mem_peaks hx
      obtain ⟨element, hread⟩ := hq.exists_read hle
      rw [hq.getFromFile_eq hle, hread, Option.isSome_some]
  have hbranch := h.branch
  rw [familyBranch, hmap] at hbranch
  rw [hstart] at hbranch hle ⊢
  rw [hlast, hsize] at hbranch hle
  refine agree_of_branch hinj hwidths hvalid hq hle (Nat.lt_add_left _ (Nat.lt_succ_self _)) hpeaks ?_ hbranch
  rw [← hstart]
  exact h.leaf

end

def Committed (env : Env) (root : Hash) (size : Nat) (elmts : List T) (p : PMMR E) : Prop :=
  ∃ q : PMMR E, q.Grown env elmts ∧ q.lastPos = size
    ∧ (q.root env : Outcome ErrorKind Hash) = .ok root ∧ p.SameWidths q

def DataAnchored (p : PMMR E) : Prop :=
  ∀ n data, p.getData (leafPos n) = some data → p.Anchored (leafPos n)

def Hashed (env : Env) (write : E → List UInt8) (p : PMMR E) : Prop :=
  ∀ n data, p.getData (leafPos n) = some data →
    p.getFromFile (leafPos n) = some (hashWithIndex env (write data) (leafPos n - 1))

def Bound (env : Env) (write : E → List UInt8) (elmts : List T) (p : PMMR E) : Prop :=
  ∀ n elmt data, elmts[n]? = some elmt → p.getData (leafPos n) = some data →
    hashWithIndex env (write data) (leafPos n - 1)
      = hashWithIndex env (PMMRable.write env elmt) (leafPos n - 1)

theorem bound_iff_hashed (hinj : Function.Injective env.blake2b) {write : E → List UInt8} {root : Hash}
    {size : Nat} (hcommitted : p.Committed env root size elmts) (hvalid : p.validate env = .ok ())
    (hroot : (p.root env : Outcome ErrorKind Hash) = .ok root) (hsize : p.lastPos = size)
    (hanchored : p.DataAnchored)
    : p.Bound env write elmts ↔ p.Hashed env write := by
  obtain ⟨q, hq, hlast, hroot', hwidths⟩ := hcommitted
  have hread {n : Nat} {elmt : T} {data : E} (helmt : elmts[n]? = some elmt)
      (hdata : p.getData (leafPos n) = some data)
      : p.getFromFile (leafPos n)
          = some (hashWithIndex env (PMMRable.write env elmt) (leafPos n - 1)) := by
    have hle := leafPos_le_mmrSize_iff.mpr (List.getElem?_eq_some_iff.mp helmt).1
    have hagree := (hanchored n data hdata).agree hinj hwidths hvalid (hsize.trans hlast.symm) hq hroot
      hroot'
    rw [hagree, hq.getFromFile_eq hle, ← nodeAt_zero]
    exact hq.leaf n elmt helmt
  constructor
  . intro hbound n data hdata
    have hlt : n < elmts.length := by
      rw [← leafPos_le_mmrSize_iff, ← hq.growing.aligned.lastPos, hlast, ← hsize]
      by_contra hgt
      rw [getData, if_pos (by omega)] at hdata
      contradiction
    have helmt := List.getElem?_eq_getElem hlt
    rw [hread helmt hdata, hbound n _ data helmt hdata]
  . intro hhashed n elmt data helmt hdata
    have hequal := hread helmt hdata
    rw [hhashed n data hdata, Option.some.injEq] at hequal
    exact hequal

end PMMR

namespace Extension

-- the roots and the sizes of the header are those of outputs, of their proofs and of kernels
structure Committing (env : Env) (outputs : List Output) (proofs : List RangeProof)
    (kernels : List TxKernel) (ext : Extension) : Prop where
  outputs : ext.outputPmmr.Committed env ext.header.outputRoot ext.header.outputMmrSize.toNat outputs
  proofs : ext.rproofPmmr.Committed env ext.header.rangeProofRoot ext.header.outputMmrSize.toNat proofs
  kernels : ext.kernelPmmr.Committed env ext.header.kernelRoot ext.header.kernelMmrSize.toNat kernels

structure DataAnchored (ext : Extension) : Prop where
  outputs : ext.outputPmmr.DataAnchored
  proofs : ext.rproofPmmr.DataAnchored
  kernels : ext.kernelPmmr.DataAnchored

def Hashed (env : Env) (ext : Extension) : Prop :=
  ext.outputPmmr.Hashed env OutputIdentifier.write
    ∧ ext.rproofPmmr.Hashed env RangeProof.write
    ∧ ext.kernelPmmr.Hashed env TxKernel.write

def Bound (env : Env) (outputs : List Output) (proofs : List RangeProof) (kernels : List TxKernel)
    (ext : Extension) : Prop :=
  ext.outputPmmr.Bound env OutputIdentifier.write outputs
    ∧ ext.rproofPmmr.Bound env RangeProof.write proofs
    ∧ ext.kernelPmmr.Bound env TxKernel.write kernels

variable {env : Env} {outputs : List Output} {proofs : List RangeProof} {kernels : List TxKernel}
  {ext : Extension} {sums : Commitment × Commitment}

-- what is checked against the header, above height 0
structure Checked (env : Env) (ext : Extension) : Prop where
  outputs : ext.outputPmmr.validate env = .ok ()
  proofs : ext.rproofPmmr.validate env = .ok ()
  kernels : ext.kernelPmmr.validate env = .ok ()
  outputRoot : (ext.outputPmmr.root env : Outcome ErrorKind Hash) = .ok ext.header.outputRoot
  rproofRoot : (ext.rproofPmmr.root env : Outcome ErrorKind Hash) = .ok ext.header.rangeProofRoot
  kernelRoot : (ext.kernelPmmr.root env : Outcome ErrorKind Hash) = .ok ext.header.kernelRoot
  outputSize : ext.outputPmmr.lastPos = ext.header.outputMmrSize.toNat
  rproofSize : ext.rproofPmmr.lastPos = ext.header.outputMmrSize.toNat
  kernelSize : ext.kernelPmmr.lastPos = ext.header.kernelMmrSize.toNat

theorem checked_of_validate (hvalid : ext.validate env false = .ok sums) (hheight : ext.header.height ≠ 0)
    : ext.Checked env := by
  unfold validate validateMmrs validateRoots validateSizes at hvalid
  simp only [Outcome.bind_eq_ok, Outcome.mapErr_eq_ok, Routine.query, hheight, if_false,
    Outcome.require_eq_ok] at hvalid
  obtain ⟨_, ⟨_, -, _, houtput, _, hrproof, hkernel⟩, _, ⟨_, -, _, houtputRoot, _, hrproofRoot, _, hkernelRoot,
    rfl, rfl, rfl⟩, _, ⟨-, houtputSize, hkernelSize, hsame⟩, -⟩ := hvalid
  exact ⟨houtput, hrproof, hkernel, houtputRoot, hrproofRoot, hkernelRoot, houtputSize,
    hsame.symm.trans houtputSize, hkernelSize⟩

theorem archive_bound_iff_hashed (hinj : Function.Injective env.blake2b)
    (hcommitting : ext.Committing env outputs proofs kernels)
    (hvalid : ext.validate env false = .ok sums) (hheight : ext.header.height ≠ 0)
    (hanchored : ext.DataAnchored)
    : ext.Bound env outputs proofs kernels ↔ ext.Hashed env := by
  have hchecked := checked_of_validate hvalid hheight
  exact and_congr
    (PMMR.bound_iff_hashed hinj hcommitting.outputs hchecked.outputs hchecked.outputRoot
      hchecked.outputSize hanchored.outputs)
    (and_congr
      (PMMR.bound_iff_hashed hinj hcommitting.proofs hchecked.proofs hchecked.rproofRoot
        hchecked.rproofSize hanchored.proofs)
      (PMMR.bound_iff_hashed hinj hcommitting.kernels hchecked.kernels hchecked.kernelRoot
        hchecked.kernelSize hanchored.kernels))

end Extension

namespace Archive

def env : Env := Transparent.env .automatedTesting

-- the whole supply at height 1
def output : Output := ⟨.coinbase, Transparent.encode (1457920000, 7), .zero⟩

def change : Output := ⟨.plain, Transparent.encode (0, 3), .zero⟩

def kernel (features : KernelFeatures) (blind : ℤ) : TxKernel :=
  ⟨features, 0, 0, Transparent.encode (0, blind), .replicate _ 0⟩

def genesis : BlockHeader := Genesis.genesisMain.header

def outputs : List Output := [output, change]

def proofs : List RangeProof := outputs.map (·.proof)

def kernels : List TxKernel := [kernel .coinbase 7, kernel .plain 3]

section

variable {T E : Type} [PMMRable T E]

def grow (prunable : Bool) (elmts : List T) : PMMR E :=
  elmts.foldl (fun p elmt => (PMMR.push env elmt p).2) (.new prunable)

def rootOf (p : PMMR E) : Hash :=
  match (p.root env : Outcome ErrorKind Hash) with
  | .ok hash => hash
  | _ => zeroHash

end

def header : BlockHeader := { genesis with
  height := 1
  prevHash := genesis.hash env
  outputRoot := rootOf (grow true outputs)
  rangeProofRoot := rootOf (grow true proofs)
  kernelRoot := rootOf (grow false kernels)
  outputMmrSize := 3
  kernelMmrSize := 3 }

def ext : Extension where
  header := header
  headerPmmr := grow false [genesis, header]
  outputPmmr := grow true outputs
  rproofPmmr := grow true proofs
  kernelPmmr := grow false kernels
  rollback := false
  batch := ChainStore.new.batch.saveBlockHeader env genesis

-- the first output is no longer a coinbase output in the data file
def tampered : Extension := { ext with
  outputPmmr := { ext.outputPmmr with
    backend := { ext.outputPmmr.backend with
      dataFile := (AppendOnlyFile.empty.append ⟨.plain, output.commit⟩).append (.fromOutput change) } } }

theorem injective : Function.Injective env.blake2b := fun _ _ h => congrArg Hash.bytes h

section

variable {T E : Type} [PMMRable T E]

theorem grown_grow (prunable : Bool) (elmts : List T)
    : (grow prunable elmts).Grown env elmts := by
  induction elmts using List.reverseRecOn with
  | nil => exact .new env prunable
  | append_singleton elmts elmt ih =>
    obtain ⟨p, hpush, -, hgrown⟩ := ih.push elmt
    rw [grow, List.foldl_append, List.foldl_cons, List.foldl_nil]
    exact congrArg Prod.snd hpush ▸ hgrown

theorem committed_of_read {p : PMMR E} (prunable : Bool) (elmts : List T)
    (hread : p.getFromFile = (grow prunable elmts).getFromFile)
    (hroot : ((grow prunable elmts).root env : Outcome ErrorKind Hash) = .ok root)
    : p.Committed env root (mmrSize elmts.length) elmts := by
  have hgrown := grown_grow prunable elmts
  refine ⟨_, hgrown, hgrown.growing.aligned.lastPos, hroot, ?_⟩
  intro pos hash hash' h h'
  rw [hread, h', Option.some.injEq] at h
  rw [h]

-- two leaves and their parent
abbrev Stored (p : PMMR E) : Prop :=
  p.lastPos = 3 ∧ ∀ pos ∈ [1, 2, 3], (p.getFromFile pos).isSome = true

theorem lt_two_of_getData {p : PMMR E} (hlast : p.lastPos = 3) (hdata : p.getData (leafPos n) = some data)
    : n < 2 := by
  rw [← leafPos_le_mmrSize_iff]
  change _ ≤ 3
  by_contra hgt
  rw [PMMR.getData, hlast, if_pos (by omega)] at hdata
  contradiction

theorem Stored.dataAnchored {p : PMMR E} (h : Stored p)
    : p.DataAnchored := by
  obtain ⟨hlast, hsome⟩ := h
  intro n data hdata
  have hwithin : ∀ n < 2, leafPos n ∈ [1, 2, 3]
      ∧ ∀ x ∈ familyBranch (leafPos n) 3, x.1 ∈ [1, 2, 3] ∧ x.2 ∈ [1, 2, 3] := by decide
  obtain ⟨hleaf, hbranch⟩ := hwithin n (lt_two_of_getData hlast hdata)
  refine ⟨hsome _ hleaf, ?_, ?_⟩
  . rw [hlast]
    exact fun x hx => ⟨hsome _ (hbranch x hx).1, hsome _ (hbranch x hx).2⟩
  . have hpeaks : ∀ x ∈ Pmmr.peaks 3, x ∈ [1, 2, 3] := by decide
    rw [hlast]
    exact fun x hx => hsome x (hpeaks x hx)

theorem Stored.hashed {p : PMMR E} {write : E → List UInt8} (h : Stored p)
    (hall : ∀ n < 2, ∀ data ∈ p.getData (leafPos n),
      p.getFromFile (leafPos n) = some (hashWithIndex env (write data) (leafPos n - 1)))
    : p.Hashed env write :=
  fun n data hdata => hall n (lt_two_of_getData h.1 hdata) data hdata

end

theorem facts
    : (Stored ext.outputPmmr ∧ Stored ext.rproofPmmr ∧ Stored ext.kernelPmmr ∧ Stored tampered.outputPmmr)
        ∧ (ext.validate env false).isOk = true
        ∧ (tampered.validate env false).isOk = true := by
  decide +kernel

theorem committing_ext : ext.Committing env outputs proofs kernels where
  outputs := committed_of_read true outputs rfl (by decide)
  proofs := committed_of_read true proofs rfl (by decide +kernel)
  kernels := committed_of_read false kernels rfl (by decide +kernel)

-- the hash files are the same
theorem committing_tampered : tampered.Committing env outputs proofs kernels :=
  ⟨committing_ext.outputs, committing_ext.proofs, committing_ext.kernels⟩

theorem dataAnchored_ext : ext.DataAnchored :=
  ⟨facts.1.1.dataAnchored, facts.1.2.1.dataAnchored, facts.1.2.2.1.dataAnchored⟩

theorem dataAnchored_tampered : tampered.DataAnchored :=
  ⟨facts.1.2.2.2.dataAnchored, dataAnchored_ext.proofs, dataAnchored_ext.kernels⟩

theorem hashed_ext : ext.Hashed env := by
  obtain ⟨⟨houtputs, hproofs, hkernels, -⟩, -⟩ := facts
  exact ⟨houtputs.hashed (by decide), hproofs.hashed (by decide),
    hkernels.hashed (by decide)⟩

end Archive

open Archive in
theorem Extension.archive_bound_iff_hashed_two
    : (∃ sums, ext.validate env false = .ok sums) ∧ ext.Bound env outputs proofs kernels := by
  obtain ⟨sums, hvalid⟩ := Outcome.isOk_eq_true.mp facts.2.1
  exact ⟨⟨sums, hvalid⟩,
    (archive_bound_iff_hashed injective committing_ext hvalid (by decide) dataAnchored_ext).mpr hashed_ext⟩

-- the features of an output are in no sum, in no range proof and in no signature
open Archive in
theorem Extension.validate_accepts_other_features
    : ∃ sums, tampered.validate env false = .ok sums
        ∧ tampered.Committing env outputs proofs kernels
        ∧ tampered.header.height ≠ 0
        ∧ tampered.DataAnchored
        ∧ tampered.outputPmmr.backend.leafSet.includes 1 = true
        ∧ ¬ tampered.Bound env outputs proofs kernels := by
  obtain ⟨sums, hvalid⟩ := Outcome.isOk_eq_true.mp facts.2.2
  refine ⟨sums, hvalid, committing_tampered, by decide, dataAnchored_tampered, by decide, ?_⟩
  rintro ⟨hbound, -⟩
  have hdata : tampered.outputPmmr.getData (leafPos 0) = some ⟨.plain, output.commit⟩ := by
    decide
  have hhash := hbound 0 output _ rfl hdata
  revert hhash
  decide

end Epic
