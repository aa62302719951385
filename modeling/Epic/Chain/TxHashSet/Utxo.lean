import Epic.Chain.TxHashSet.Apply
import Epic.Core.Genesis
import Epic.Core.Pmmr.Peaks
import Epic.Core.Transaction.Sorted
import Epic.Core.Transparent

/-!
This module contains the unspent outputs as a set, and that the index, the leaf set and the files of an
extension take in a block as the set does.
-/

namespace Epic

open Routine Pmmr

namespace Utxo

def Fresh (unspent : Set OutputIdentifier) (commit : Commitment) : Prop :=
  ∀ out ∈ unspent, out.commit ≠ commit

structure Accepts (unspent : Set OutputIdentifier) (body : TransactionBody) : Prop where
  inputs : ∀ x ∈ body.inputs, .fromInput x ∈ unspent
  outputs : ∀ o ∈ body.outputs, Fresh unspent o.commit
  distinct : (body.outputs.map (·.commit)).Nodup

def spent (inputs : List Input) : Set OutputIdentifier := {out | ∃ x ∈ inputs, out = .fromInput x}

def created (outputs : List Output) : Set OutputIdentifier := {out | ∃ o ∈ outputs, out = .fromOutput o}

def apply (unspent : Set OutputIdentifier) (body : TransactionBody) : Set OutputIdentifier :=
  unspent \ spent body.inputs ∪ created body.outputs

theorem created_concat (outputs : List Output) (o : Output)
    : created (outputs ++ [o]) = insert (.fromOutput o) (created outputs) := by
  ext out
  simp only [created, List.mem_append, List.mem_singleton, Set.mem_ofPred_eq, Set.mem_insert_iff]
  constructor
  . rintro ⟨o', hmem | rfl, rfl⟩
    . exact .inr ⟨o', hmem, rfl⟩
    . exact .inl rfl
  . rintro (rfl | ⟨o', hmem, rfl⟩)
    . exact ⟨o, .inr rfl, rfl⟩
    . exact ⟨o', .inl hmem, rfl⟩

theorem spent_concat (inputs : List Input) (x : Input)
    : spent (inputs ++ [x]) = insert (.fromInput x) (spent inputs) := by
  ext out
  simp only [spent, List.mem_append, List.mem_singleton, Set.mem_ofPred_eq, Set.mem_insert_iff]
  constructor
  . rintro ⟨x', hmem | rfl, rfl⟩
    . exact .inr ⟨x', hmem, rfl⟩
    . exact .inl rfl
  . rintro (rfl | ⟨x', hmem, rfl⟩)
    . exact ⟨x, .inr rfl, rfl⟩
    . exact ⟨x', .inl hmem, rfl⟩

end Utxo

theorem hashWithIndex_inj (hinj : Function.Injective env.blake2b)
    (h : hashWithIndex env x index = hashWithIndex env y index)
    : x = y := List.append_cancel_left (hinj h)

theorem Output.write_hash (o : Output)
    : o.write .hash = (OutputIdentifier.fromOutput o).write := List.append_nil _

theorem TransactionBody.Sorted.fromInput_ne {body : TransactionBody} (h : body.Sorted env)
    (hx : x ∈ body.inputs) (ho : o ∈ body.outputs)
    : OutputIdentifier.fromInput x ≠ .fromOutput o := by
  intro heq
  apply h.disjoint x hx o ho
  unfold Input.hash Output.hash
  rw [Output.write_hash, ← heq]
  rfl

-- a leaf that can be read, with the hash of its data
structure PMMR.Leaf (env : Env) (p : PMMR OutputIdentifier) (pos : Nat) (out : OutputIdentifier)
    : Prop where
  isLeaf : isLeaf pos = true
  le : pos ≤ p.lastPos
  data : p.backend.getDataFromFile pos = some out
  hash : p.backend.getFromFile pos = some (hashWithIndex env out.write (pos - 1))

namespace Extension

variable {env : Env} {ext ext' : Extension}

def unspent (ext : Extension) : Set OutputIdentifier := {out | ∃ pos, ext.outputPmmr.getData pos = some out}

-- the index maps each unspent commitment to its position, what it says about others is left open
def Indexed (ext : Extension) : Prop :=
  ∀ pos out, ext.outputPmmr.getData pos = some out → ext.batch.getOutputPos out.commit = some pos

-- A rewind can leave leaves in the leaf set that are past the end. Nothing is read there.
structure Sound (env : Env) (ext : Extension) : Prop where
  header : ∃ n, ext.headerPmmr.Growing n
  outputs : ∃ n, ext.outputPmmr.Growing n ∧ ext.rproofPmmr.Growing n
  kernel : ∃ n, ext.kernelPmmr.Growing n
  outputPruned : ext.outputPmmr.backend.prunable = true
  rproofPruned : ext.rproofPmmr.backend.prunable = true
  isLeaf : ∀ pos ∈ ext.outputPmmr.backend.leafSet.bitmap, isLeaf pos = true
  leaf : ∀ pos ∈ ext.outputPmmr.backend.leafSet.bitmap, pos ≤ ext.outputPmmr.lastPos →
    ∃ out, ext.outputPmmr.Leaf env pos out

theorem Sound.new (env : Env) (batch : Batch) (header : BlockHeader)
    : Sound env (.new ⟨.new, batch⟩ header) :=
  ⟨⟨0, .new _⟩, ⟨0, .new _, .new _⟩, ⟨0, .new _⟩, rfl, rfl,
    fun _ hpos => absurd hpos (Finset.notMem_empty _), fun _ hpos => absurd hpos (Finset.notMem_empty _)⟩

theorem Sound.getData_eq_some (h : Sound env ext)
    : ext.outputPmmr.getData pos = some out
        ↔
      pos ∈ ext.outputPmmr.backend.leafSet.bitmap ∧ ext.outputPmmr.Leaf env pos out := by
  have hread (hmem : pos ∈ ext.outputPmmr.backend.leafSet.bitmap) {out' : OutputIdentifier}
      (hleaf : ext.outputPmmr.Leaf env pos out')
      : ext.outputPmmr.getData pos = ext.outputPmmr.backend.getDataFromFile pos := by
    have hle := hleaf.le
    unfold PMMR.getData PMMRBackend.getData
    rw [if_neg (by omega), hleaf.isLeaf]
    simp [LeafSet.includes, hmem]
  constructor
  . intro hdata
    have hmem : pos ∈ ext.outputPmmr.backend.leafSet.bitmap := by
      by_contra hnot
      unfold PMMR.getData PMMRBackend.getData at hdata
      simp [LeafSet.includes, hnot, h.outputPruned] at hdata
    have hle : pos ≤ ext.outputPmmr.lastPos := by
      by_contra hlt
      unfold PMMR.getData at hdata
      rw [if_pos (by omega)] at hdata
      contradiction
    obtain ⟨out', hleaf⟩ := h.leaf pos hmem hle
    rw [hread hmem hleaf, hleaf.data, Option.some.injEq] at hdata
    exact ⟨hmem, hdata ▸ hleaf⟩
  . rintro ⟨hmem, hleaf⟩
    rw [hread hmem hleaf]
    exact hleaf.data

theorem validateOutput_eq_ok (h : ext.Indexed)
    : UTXOView.validateOutput ext.outputPmmr ext.batch o = .ok ()
        ↔
      Utxo.Fresh ext.unspent o.commit := by
  unfold UTXOView.validateOutput
  constructor
  . rintro hvalid out ⟨pos, hdata⟩ hcommit
    have hpos := h pos out hdata
    rw [hcommit] at hpos
    rw [hpos] at hvalid
    simp only [Outcome.require_eq_ok, hdata, Option.map_some, hcommit] at hvalid
    contradiction
  . intro hfresh
    split
    . next pos hpos =>
      rw [Outcome.require_eq_ok]
      intro hcommit
      obtain ⟨out, hdata, hout⟩ := Option.map_eq_some_iff.mp hcommit
      exact hfresh out ⟨pos, hdata⟩ hout
    . rfl

theorem Sound.leaf_create (h : Sound env ext)
    (pos : Nat) (out : OutputIdentifier) (hgrowing : ext.outputPmmr.Growing n)
    (happended : PMMR.Appended env o n ext.outputPmmr p)
    : pos ∈ p.backend.leafSet.bitmap ∧ p.Leaf env pos out
        ↔
      pos = leafPos n ∧ out = .fromOutput o
        ∨ pos ∈ ext.outputPmmr.backend.leafSet.bitmap ∧ ext.outputPmmr.Leaf env pos out := by
  have hleafSet := happended.leafSet
  rw [if_pos h.outputPruned] at hleafSet
  have hmem : pos ∈ p.backend.leafSet.bitmap
      ↔ pos = leafPos n ∨ pos ∈ ext.outputPmmr.backend.leafSet.bitmap := by
    rw [hleafSet]
    exact Finset.mem_insert
  have hsize := mmrSize_lt_succ n
  have hlastPos := happended.aligned.lastPos
  have hold := hgrowing.aligned.lastPos
  have hnew : p.Leaf env (leafPos n) (.fromOutput o) := by
    refine ⟨isLeaf_leafPos n, ?_, happended.getDataFromFile hgrowing.aligned, ?_⟩
    . rw [hlastPos]
      exact hsize
    . rw [happended.getFromFile hgrowing.aligned, ← Output.write_hash]
      rfl
  have hkeep {out' : OutputIdentifier} (hleaf : ext.outputPmmr.Leaf env pos out')
      : p.Leaf env pos out' := by
    have hle := hleaf.le
    exact ⟨hleaf.isLeaf, by omega, happended.getDataFromFile_old hgrowing.aligned hleaf.data,
      happended.getFromFile_old hgrowing.aligned hleaf.hash⟩
  have heq (hleaf : p.Leaf env (leafPos n) out) : out = .fromOutput o :=
    (Option.some.inj (hnew.data.symm.trans hleaf.data)).symm
  rw [hmem]
  constructor
  . rintro ⟨rfl | hmem, hleaf⟩
    . exact .inl ⟨rfl, heq hleaf⟩
    by_cases hle : pos ≤ ext.outputPmmr.lastPos
    -- the only leaf that the range gets is the new one
    case neg =>
      have hlast := hleaf.le
      obtain rfl := eq_leafPos_of_le hleaf.isLeaf (by omega : mmrSize n < pos) (by omega)
      exact .inl ⟨rfl, heq hleaf⟩
    case pos =>
      obtain ⟨out', hleaf'⟩ := h.leaf pos hmem hle
      have hdata := (hkeep hleaf').data.symm.trans hleaf.data
      exact .inr ⟨hmem, Option.some.inj hdata ▸ hleaf'⟩
  . rintro (⟨rfl, rfl⟩ | ⟨hmem, hleaf⟩)
    . exact ⟨.inl rfl, hnew⟩
    . exact ⟨.inr hmem, hkeep hleaf⟩

-- an extension with the unspent outputs of a set
structure Represents (env : Env) (unspent : Set OutputIdentifier) (ext : Extension) : Prop where
  sound : Sound env ext
  indexed : ext.Indexed
  unspent : ext.unspent = unspent

variable {unspent : Set OutputIdentifier}

theorem Represents.create (h : Represents env unspent ext)
    (hcreates : Creates env o ext ext')
    : Utxo.Fresh unspent o.commit ∧ Represents env (insert (.fromOutput o) unspent) ext' := by
  have hfresh := (validateOutput_eq_ok h.indexed).mp hcreates.fresh
  obtain ⟨n, houtput, hrproof⟩ := h.sound.outputs
  obtain ⟨pos, hpush, hbatch⟩ := hcreates.pushed
  obtain ⟨rpos, hproof⟩ := hcreates.proved
  obtain ⟨rfl, happended⟩ := houtput.aligned.push hpush
  obtain ⟨-, hrappended⟩ := hrproof.aligned.push hproof
  have hleaf {pos : Nat} {out : OutputIdentifier} := h.sound.leaf_create pos out houtput happended
  have hmem' {pos : Nat} (hmem : pos ∈ ext'.outputPmmr.backend.leafSet.bitmap)
      : pos = leafPos n ∨ pos ∈ ext.outputPmmr.backend.leafSet.bitmap := by
    rw [happended.leafSet, if_pos h.sound.outputPruned] at hmem
    exact Finset.mem_insert.mp hmem
  have hsound : Sound env ext' := by
    refine ⟨?_, ⟨n + 1, houtput.appended happended, hrproof.appended hrappended⟩, ?_,
      happended.prunable.trans h.sound.outputPruned, hrappended.prunable.trans h.sound.rproofPruned, ?_, ?_⟩
    . rw [hcreates.headerPmmr]
      exact h.sound.header
    . rw [hcreates.kernelPmmr]
      exact h.sound.kernel
    . intro pos hmem
      rcases hmem' hmem with rfl | hmem
      . exact isLeaf_leafPos n
      . exact h.sound.isLeaf pos hmem
    . intro pos hmem hle
      rcases hmem' hmem with rfl | hmem
      . exact ⟨_, (hleaf.mpr (.inl ⟨rfl, rfl⟩)).2⟩
      by_cases hold : pos ≤ ext.outputPmmr.lastPos
      . obtain ⟨out, hout⟩ := h.sound.leaf pos hmem hold
        exact ⟨out, (hleaf.mpr (.inr ⟨hmem, hout⟩)).2⟩
      . rw [houtput.aligned.lastPos] at hold
        rw [happended.aligned.lastPos] at hle
        obtain rfl := eq_leafPos_of_le (h.sound.isLeaf pos hmem) (Nat.lt_of_not_le hold) hle
        exact ⟨_, (hleaf.mpr (.inl ⟨rfl, rfl⟩)).2⟩
  have hdata {pos : Nat} {out : OutputIdentifier} : ext'.outputPmmr.getData pos = some out
      ↔ pos = leafPos n ∧ out = .fromOutput o ∨ ext.outputPmmr.getData pos = some out := by
    rw [hsound.getData_eq_some, hleaf, h.sound.getData_eq_some]
  rw [← h.unspent]
  refine ⟨hfresh, hsound, ?_, ?_⟩
  . intro pos out hout
    rw [hbatch]
    unfold Batch.getOutputPos Batch.saveOutputPos
    dsimp only
    rcases hdata.mp hout with ⟨rfl, rfl⟩ | hout
    . exact AList.lookup_insert _
    . rw [AList.lookup_insert_ne (hfresh out ⟨pos, hout⟩)]
      exact h.indexed pos out hout
  . ext out
    rw [Set.mem_insert_iff]
    constructor
    . rintro ⟨pos, hout⟩
      rcases hdata.mp hout with ⟨-, rfl⟩ | hout
      . exact .inl rfl
      . exact .inr ⟨pos, hout⟩
    . rintro (rfl | ⟨pos, hout⟩)
      . exact ⟨leafPos n, hdata.mpr (.inl ⟨rfl, rfl⟩)⟩
      . exact ⟨pos, hdata.mpr (.inr hout)⟩

theorem Represents.applyAndIndexOutput (h : Represents env unspent ext)
    (hfresh : Utxo.Fresh unspent o.commit)
    : ∃ ext', applyAndIndexOutput env o ext = (.ok (), ext') := by
  rw [← h.unspent] at hfresh
  have hvalid := (validateOutput_eq_ok h.indexed).mpr hfresh
  obtain ⟨n, houtput, hrproof⟩ := h.sound.outputs
  obtain ⟨p, hpush, happended⟩ := houtput.push env o
  obtain ⟨q, hproof, hrappended⟩ := hrproof.push env o.proof
  refine ⟨_, bind_eq_ok.mpr ⟨leafPos n, { ext with outputPmmr := p, rproofPmmr := q }, ?_, rfl⟩⟩
  apply bind_eq_ok.mpr
  refine ⟨(), ext, query_eq_ok.mpr ⟨hvalid, rfl⟩, ?_⟩
  apply bind_eq_ok.mpr
  refine ⟨leafPos n, { ext with outputPmmr := p }, onOutput_eq_ok.mpr ⟨p, hpush, rfl⟩, ?_⟩
  apply bind_eq_ok.mpr
  refine ⟨leafPos n, { ext with outputPmmr := p, rproofPmmr := q },
    onRproof_eq_ok.mpr ⟨q, hproof, rfl⟩, ?_⟩
  rw [bind_apply, gets_apply]
  dsimp only
  apply bind_eq_ok.mpr
  refine ⟨(), _, lift_eq_ok.mpr ⟨?_, rfl⟩, ?_⟩
  . rw [Outcome.require_eq_ok]
    exact happended.aligned.lastPos.trans hrappended.aligned.lastPos.symm
  apply bind_eq_ok.mpr
  exact ⟨(), _, lift_eq_ok.mpr ⟨Outcome.require_eq_ok.mpr rfl, rfl⟩, rfl⟩

theorem Represents.spend (hinj : Function.Injective env.blake2b)
    (h : Represents env unspent ext) (hspends : Spends env x ext ext')
    : .fromInput x ∈ unspent ∧ Represents env (unspent \ {.fromInput x}) ext' := by
  obtain ⟨pos, hpos, hhash, hprune⟩ := hspends.pruned
  obtain ⟨rpos, pruned, -, hproof⟩ := hspends.proved
  have hremoved := PMMR.removed_of_prune hprune
  obtain ⟨n, houtput, hrproof⟩ := h.sound.outputs
  obtain ⟨hash, hfound⟩ := hremoved.found
  have hle : pos ≤ ext.outputPmmr.lastPos := by
    rw [houtput.aligned.lastPos]
    exact houtput.aligned.le_of_getFromFile hfound
  obtain ⟨out, hleaf⟩ := h.sound.leaf pos hremoved.unspent hle
  have hout : out = .fromInput x := by
    have hfound := hremoved.getHash hle
    rw [hleaf.hash] at hfound
    exact OutputIdentifier.write_injective (hashWithIndex_inj hinj (hhash _ hfound))
  subst hout
  have hdata : ext.outputPmmr.getData pos = some (.fromInput x) :=
    h.sound.getData_eq_some.mpr ⟨hremoved.unspent, hleaf⟩
  have hstate := hremoved.state
  have hleaf' {pos' : Nat} {out : OutputIdentifier} : ext'.outputPmmr.Leaf env pos' out
      ↔ ext.outputPmmr.Leaf env pos' out := by
    rw [hstate]
    exact ⟨fun ⟨h₁, h₂, h₃, h₄⟩ => ⟨h₁, h₂, h₃, h₄⟩, fun ⟨h₁, h₂, h₃, h₄⟩ => ⟨h₁, h₂, h₃, h₄⟩⟩
  have hmem {pos' : Nat} : pos' ∈ ext'.outputPmmr.backend.leafSet.bitmap
      ↔ pos' ≠ pos ∧ pos' ∈ ext.outputPmmr.backend.leafSet.bitmap := by
    rw [hstate]
    exact Finset.mem_erase
  have hsound : Sound env ext' := by
    have hrproof' : ext'.rproofPmmr.Growing n ∧ ext'.rproofPmmr.backend.prunable = true := by
      have heq := PMMR.prune_eq rpos ext.rproofPmmr
      rw [hproof] at heq
      rcases heq with heq | ⟨-, heq⟩
      . rw [show ext'.rproofPmmr = _ from heq]
        exact ⟨hrproof, h.sound.rproofPruned⟩
      . rw [show ext'.rproofPmmr = _ from heq]
        exact ⟨hrproof.of_leafSet _, h.sound.rproofPruned⟩
    refine ⟨?_, ⟨n, ?_, hrproof'.1⟩, ?_, ?_, hrproof'.2, ?_, ?_⟩
    . rw [hspends.headerPmmr]
      exact h.sound.header
    . rw [hstate]
      exact houtput.of_leafSet _
    . rw [hspends.kernelPmmr]
      exact h.sound.kernel
    . rw [hstate]
      exact h.sound.outputPruned
    . exact fun pos' hpos' => h.sound.isLeaf pos' (hmem.mp hpos').2
    . intro pos' hpos' hle'
      rw [hstate] at hle'
      obtain ⟨out, hout⟩ := h.sound.leaf pos' (hmem.mp hpos').2 hle'
      exact ⟨out, hleaf'.mpr hout⟩
  have hdata' {pos' : Nat} {out : OutputIdentifier} : ext'.outputPmmr.getData pos' = some out
      ↔ pos' ≠ pos ∧ ext.outputPmmr.getData pos' = some out := by
    rw [hsound.getData_eq_some, h.sound.getData_eq_some, hmem, hleaf', and_assoc]
  rw [← h.unspent]
  refine ⟨⟨pos, hdata⟩, hsound, ?_, ?_⟩
  . intro pos' out hout
    rw [hspends.batch]
    exact h.indexed pos' out (hdata'.mp hout).2
  . ext out
    rw [Set.mem_sdiff, Set.mem_singleton_iff]
    constructor
    . rintro ⟨pos', hout⟩
      obtain ⟨hne, hout⟩ := hdata'.mp hout
      refine ⟨⟨pos', hout⟩, ?_⟩
      rintro rfl
      have hsame := (h.indexed pos' _ hout).symm.trans hpos
      exact hne (Option.some.inj hsame)
    . rintro ⟨⟨pos', hout⟩, hne⟩
      refine ⟨pos', hdata'.mpr ⟨?_, hout⟩⟩
      rintro rfl
      exact hne (Option.some.inj (hout.symm.trans hdata))

structure Found (env : Env) (ext : Extension) (x : Input) (pos : Nat) : Prop where
  indexed : ext.batch.getOutputPos x.commit = some pos
  isLeaf : isLeaf pos = true
  backend : ext.outputPmmr.backend.getHash pos = some (hashWithIndex env x.write (pos - 1))
  hash : ext.outputPmmr.getHash pos = some (hashWithIndex env x.write (pos - 1))

theorem Represents.found (h : Represents env unspent ext) (hx : .fromInput x ∈ unspent)
    : ∃ pos, Found env ext x pos := by
  rw [← h.unspent] at hx
  obtain ⟨pos, hdata⟩ := hx
  obtain ⟨hmem, hleaf⟩ := h.sound.getData_eq_some.mp hdata
  have hincludes : ext.outputPmmr.backend.leafSet.includes pos = true := by
    simpa [LeafSet.includes] using hmem
  have hbackend : ext.outputPmmr.backend.getHash pos
      = some (hashWithIndex env x.write (pos - 1)) := by
    unfold PMMRBackend.getHash
    rw [hincludes, hleaf.hash]
    simp only [Bool.not_true, Bool.and_false, Bool.false_eq_true, ↓reduceIte]
    rfl
  have hhash : ext.outputPmmr.getHash pos = some (hashWithIndex env x.write (pos - 1)) := by
    have hle := hleaf.le
    unfold PMMR.getHash
    rw [if_neg (by omega), hleaf.isLeaf, if_pos rfl, hbackend]
  exact ⟨pos, h.indexed pos _ hdata, hleaf.isLeaf, hbackend, hhash⟩

theorem Represents.applyInput (h : Represents env unspent ext)
    (hx : .fromInput x ∈ unspent)
    : ∃ ext', applyInput env x ext = (.ok (), ext') := by
  obtain ⟨pos, hfound⟩ := h.found hx
  have hprune : PMMR.prune pos ext.outputPmmr
      = (.ok true, { ext.outputPmmr with backend := ext.outputPmmr.backend.remove pos }) := by
    unfold PMMR.prune
    rw [hfound.isLeaf, hfound.backend, h.sound.outputPruned]
    simp
  obtain ⟨pruned, q, hproof⟩ : ∃ pruned q, PMMR.prune pos ext.rproofPmmr = (.ok pruned, q) := by
    unfold PMMR.prune
    rw [hfound.isLeaf, h.sound.rproofPruned]
    simp only [Bool.not_true, Bool.false_eq_true, ↓reduceIte]
    split
    . exact ⟨_, _, rfl⟩
    . exact ⟨_, _, rfl⟩
  refine ⟨{ ext with
    outputPmmr := { ext.outputPmmr with backend := ext.outputPmmr.backend.remove pos }
    rproofPmmr := q }, ?_⟩
  apply bind_eq_ok.mpr
  refine ⟨pos, ext, query_eq_ok.mpr ⟨Outcome.okOr_eq_ok.mpr hfound.indexed, rfl⟩, ?_⟩
  apply bind_eq_ok.mpr
  refine ⟨(), ext, ?_, ?_⟩
  . unfold checkHash
    rw [query_eq_ok, hfound.hash]
    exact ⟨Outcome.require_eq_ok.mpr rfl, rfl⟩
  apply bind_eq_ok.mpr
  refine ⟨true, _, onOutput_eq_ok.mpr ⟨_, hprune, rfl⟩, ?_⟩
  apply bind_eq_ok.mpr
  refine ⟨(), _, lift_eq_ok.mpr ⟨Outcome.require_eq_ok.mpr rfl, rfl⟩, ?_⟩
  apply bind_eq_ok.mpr
  exact ⟨pruned, _, onRproof_eq_ok.mpr ⟨q, hproof, rfl⟩, rfl⟩

theorem validateOutputs_eq_ok {p : PMMR OutputIdentifier} {batch : Batch} {outputs : List Output}
    : UTXOView.validateOutputs p batch outputs = .ok ()
        ↔
      ∀ o ∈ outputs, UTXOView.validateOutput p batch o = .ok () := by
  induction outputs with
  | nil => simp [UTXOView.validateOutputs]
  | cons o outputs ih =>
    rw [UTXOView.validateOutputs, Outcome.bind_eq_ok, List.forall_mem_cons, ← ih]
    exact ⟨fun ⟨_, ho, houtputs⟩ => ⟨ho, houtputs⟩, fun ⟨ho, houtputs⟩ => ⟨(), ho, houtputs⟩⟩

theorem validateInputs_eq_ok {p : PMMR OutputIdentifier} {batch : Batch} {inputs : List Input}
    : UTXOView.validateInputs env p batch inputs = .ok ()
        ↔
      ∀ x ∈ inputs, UTXOView.validateInput env p batch x = .ok () := by
  induction inputs with
  | nil => simp [UTXOView.validateInputs]
  | cons x inputs ih =>
    rw [UTXOView.validateInputs, Outcome.bind_eq_ok, List.forall_mem_cons, ← ih]
    exact ⟨fun ⟨_, hx, hinputs⟩ => ⟨hx, hinputs⟩, fun ⟨hx, hinputs⟩ => ⟨(), hx, hinputs⟩⟩

theorem Represents.validateBlock (h : Represents env unspent ext)
    (haccepts : Utxo.Accepts unspent b.body)
    : UTXOView.validateBlock env ext.outputPmmr ext.batch b = .ok () := by
  apply Outcome.bind_eq_ok.mpr
  refine ⟨(), validateOutputs_eq_ok.mpr fun o ho => ?_, validateInputs_eq_ok.mpr fun x hx => ?_⟩
  . rw [validateOutput_eq_ok h.indexed, h.unspent]
    exact haccepts.outputs o ho
  . obtain ⟨pos, hfound⟩ := h.found (haccepts.inputs x hx)
    unfold UTXOView.validateInput
    rw [hfound.indexed, Outcome.require_eq_ok]
    exact hfound.hash

theorem Represents.of_header (h : Represents env unspent ext)
    (hp : p.Growing n)
    : Represents env unspent { ext with headerPmmr := p } :=
  ⟨⟨⟨n, hp⟩, h.sound.outputs, h.sound.kernel, h.sound.outputPruned, h.sound.rproofPruned,
    h.sound.isLeaf, h.sound.leaf⟩, h.indexed, h.unspent⟩

theorem Represents.of_keeps (h : Represents env unspent ext) (hkeeps : Keeps ext ext')
    (hkernel : ext'.kernelPmmr.Growing n)
    : Represents env unspent ext' := by
  have hunspent : ext'.unspent = ext.unspent := by
    unfold Extension.unspent
    rw [hkeeps.outputPmmr]
  refine ⟨⟨?_, ?_, ⟨n, hkernel⟩, ?_, ?_, ?_, ?_⟩, ?_, hunspent.trans h.unspent⟩
  . rw [hkeeps.headerPmmr]
    exact h.sound.header
  . rw [hkeeps.outputPmmr, hkeeps.rproofPmmr]
    exact h.sound.outputs
  . rw [hkeeps.outputPmmr]
    exact h.sound.outputPruned
  . rw [hkeeps.rproofPmmr]
    exact h.sound.rproofPruned
  . rw [hkeeps.outputPmmr]
    exact h.sound.isLeaf
  . rw [hkeeps.outputPmmr]
    exact h.sound.leaf
  . unfold Indexed
    rw [hkeeps.outputPmmr, hkeeps.batch]
    exact h.indexed

structure Creating (env : Env) (unspent : Set OutputIdentifier) (done : List Output) (ext : Extension)
    : Prop where
  represents : Represents env (unspent ∪ Utxo.created done) ext
  fresh : ∀ o ∈ done, Utxo.Fresh unspent o.commit
  distinct : (done.map (·.commit)).Nodup

theorem Creating.start (h : Represents env unspent ext)
    : Creating env unspent [] ext := by
  refine ⟨?_, List.forall_mem_nil _, List.nodup_nil⟩
  have hempty : Utxo.created [] = ∅ := by simp [Utxo.created]
  rw [hempty, Set.union_empty]
  exact h

theorem Creating.next (h : Creating env unspent done ext)
    (hout : Extension.applyAndIndexOutput env o ext = (.ok (), ext'))
    : Creating env unspent (done ++ [o]) ext' := by
  obtain ⟨hfresh, hnext⟩ := h.represents.create (creates_applyAndIndexOutput hout)
  refine ⟨?_, ?_, ?_⟩
  . rw [Utxo.created_concat, Set.union_insert]
    exact hnext
  . intro o' ho'
    rcases List.mem_append.mp ho' with ho' | ho'
    . exact h.fresh o' ho'
    . rw [List.mem_singleton.mp ho']
      exact fun out hmem => hfresh out (.inl hmem)
  . rw [List.map_append, List.nodup_append]
    refine ⟨h.distinct, List.nodup_singleton _, ?_⟩
    intro commit hcommit commit' hcommit'
    obtain ⟨o', ho', rfl⟩ := List.mem_map.mp hcommit
    simp only [List.map_cons, List.map_nil, List.mem_singleton] at hcommit'
    rw [hcommit']
    exact hfresh (.fromOutput o') (.inr ⟨o', ho', rfl⟩)

structure Spending (env : Env) (unspent : Set OutputIdentifier) (done : List Input) (ext : Extension)
    : Prop where
  represents : Represents env (unspent \ Utxo.spent done) ext
  unspent : ∀ x ∈ done, .fromInput x ∈ unspent

theorem Spending.start (h : Represents env unspent ext)
    : Spending env unspent [] ext := by
  refine ⟨?_, List.forall_mem_nil _⟩
  have hempty : Utxo.spent [] = ∅ := by simp [Utxo.spent]
  rw [hempty, Set.sdiff_empty]
  exact h

theorem Spending.next (hinj : Function.Injective env.blake2b)
    (h : Spending env unspent done ext) (hinput : Extension.applyInput env x ext = (.ok (), ext'))
    : Spending env unspent (done ++ [x]) ext' := by
  obtain ⟨hmem, hnext⟩ := h.represents.spend hinj (spends_applyInput hinput)
  refine ⟨?_, ?_⟩
  . rw [Utxo.spent_concat, Set.insert_eq, Set.union_comm, ← Set.sdiff_sdiff]
    exact hnext
  . intro x' hx'
    rcases List.mem_append.mp hx' with hx' | hx'
    . exact h.unspent x' hx'
    . rw [List.mem_singleton.mp hx']
      exact hmem.1

theorem Utxo.union_sdiff_eq_apply {body : TransactionBody} (hsorted : body.Sorted env)
    : (unspent ∪ Utxo.created body.outputs) \ Utxo.spent body.inputs = Utxo.apply unspent body := by
  have hdisjoint : Utxo.created body.outputs \ Utxo.spent body.inputs = Utxo.created body.outputs := by
    rw [sdiff_eq_left, Set.disjoint_left]
    rintro _ ⟨o, ho, rfl⟩ ⟨x, hx, heq⟩
    exact hsorted.fromInput_ne hx ho heq.symm
  unfold Utxo.apply
  rw [Set.union_sdiff_distrib, hdisjoint]

theorem growing_applyKernels
    (h : ∃ n, ext.kernelPmmr.Growing n)
    (happly : forEach kernels (applyKernel env) ext = (.ok u, ext'))
    : ∃ n, ext'.kernelPmmr.Growing n := by
  apply forEach_eq_ok (fun _ ext₁ => ∃ n, ext₁.kernelPmmr.Growing n) h _ happly
  rintro _ kernel ext₁ ext₂ _ ⟨n, hn⟩ hkernel
  obtain ⟨pos, p, hpush, rfl⟩ := applyKernel_eq_ok hkernel
  exact ⟨n + 1, hn.appended (hn.aligned.push hpush).2⟩

theorem Represents.applyBlock {b : Block} (hinj : Function.Injective env.blake2b)
    (h : Represents env unspent ext) (hsorted : b.body.Sorted env)
    (happly : Extension.applyBlock env b ext = (.ok u, ext'))
    : Utxo.Accepts unspent b.body ∧ Represents env (Utxo.apply unspent b.body) ext' := by
  obtain ⟨mid, happlies⟩ := applies_applyBlock happly
  obtain ⟨pos, p, hpush, houtputs⟩ := happlies.outputs
  obtain ⟨last, hinputs, hkeeps⟩ := happlies.inputs
  obtain ⟨last', ext₁, hinputs', hkernels, hkernelPmmr⟩ := happlies.kernels
  obtain ⟨-, rfl⟩ := Prod.mk.inj (hinputs.symm.trans hinputs')
  obtain ⟨n, hheader⟩ := h.sound.header
  have hstart := h.of_header (hheader.appended (hheader.aligned.push hpush).2)
  have hmid : Creating env unspent b.body.outputs mid :=
    forEach_eq_ok (Creating env unspent) (.start hstart)
      (fun _ _ _ _ _ hdone hout => hdone.next hout) houtputs
  have hlast : Spending env (unspent ∪ Utxo.created b.body.outputs) b.body.inputs last :=
    forEach_eq_ok (Spending env _) (.start hmid.represents)
      (fun _ _ _ _ _ hdone hinput => hdone.next hinj hinput) hinputs
  obtain ⟨m, hkernel⟩ := growing_applyKernels hlast.represents.sound.kernel hkernels
  rw [← hkernelPmmr] at hkernel
  refine ⟨⟨?_, hmid.fresh, hmid.distinct⟩, ?_⟩
  . intro x hx
    rcases hlast.unspent x hx with hmem | ⟨o, ho, heq⟩
    . exact hmem
    . exact absurd heq (hsorted.fromInput_ne hx ho)
  . rw [← Utxo.union_sdiff_eq_apply hsorted]
    exact hlast.represents.of_keeps hkeeps hkernel

theorem Represents.applyBlock_ok (hinj : Function.Injective env.blake2b)
    (h : Represents env unspent ext) (hsorted : b.body.Sorted env)
    (haccepts : Utxo.Accepts unspent b.body)
    : ∃ ext', Extension.applyBlock env b ext = (.ok (), ext') := by
  obtain ⟨n, hheader⟩ := h.sound.header
  obtain ⟨p, hpush, happended⟩ := hheader.push env b.header
  have hstart := h.of_header (hheader.appended happended)
  obtain ⟨mid, houtputs, hmid⟩ := forEach_ok (l := b.body.outputs) (f := Extension.applyAndIndexOutput env)
    (Creating env unspent) (.start hstart) (by
      intro done o ext₁ hinitial hdone
      have ho : o ∈ b.body.outputs := hinitial.subset (by simp)
      have hfresh : Utxo.Fresh (unspent ∪ Utxo.created done) o.commit := by
        rintro out (hmem | ⟨o', ho', rfl⟩)
        . exact haccepts.outputs o ho out hmem
        . have hnodup := haccepts.distinct.sublist (hinitial.sublist.map _)
          rw [List.map_append, List.nodup_append] at hnodup
          exact hnodup.2.2 _ (List.mem_map_of_mem ho') _ (by simp)
      obtain ⟨ext₂, hout⟩ := hdone.represents.applyAndIndexOutput hfresh
      exact ⟨ext₂, hout, hdone.next hout⟩)
  obtain ⟨last, hinputs, hlast⟩ := forEach_ok (l := b.body.inputs) (f := Extension.applyInput env)
    (Spending env (unspent ∪ Utxo.created b.body.outputs)) (.start hmid.represents) (by
      intro done x ext₁ hinitial hdone
      have hx : x ∈ b.body.inputs := hinitial.subset (by simp)
      have hmem : .fromInput x ∈ (unspent ∪ Utxo.created b.body.outputs) \ Utxo.spent done := by
        refine ⟨.inl (haccepts.inputs x hx), ?_⟩
        rintro ⟨x', hx', heq⟩
        have hnodup := hsorted.inputs.sublist (hinitial.sublist.map _)
        rw [List.map_append, List.nodup_append] at hnodup
        apply hnodup.2.2 _ (List.mem_map_of_mem hx') (x.hash env) (by simp)
        exact congrArg (fun out => env.blake2b (OutputIdentifier.write out)) heq.symm
      obtain ⟨ext₂, hinput⟩ := hdone.represents.applyInput hmem
      exact ⟨ext₂, hinput, hdone.next hinj hinput⟩)
  obtain ⟨ext₁, hkernels, -⟩ := forEach_ok (l := b.body.kernels) (f := applyKernel env)
    (fun _ ext₁ => ∃ n, ext₁.kernelPmmr.Growing n) hlast.represents.sound.kernel (by
      rintro _ kernel ext₁ - ⟨m, hm⟩
      obtain ⟨q, hpush, happended⟩ := hm.push env kernel
      refine ⟨{ ext₁ with kernelPmmr := q }, ?_, m + 1, hm.appended happended⟩
      exact bind_eq_ok.mpr ⟨leafPos m, _, onKernel_eq_ok.mpr ⟨q, hpush, rfl⟩, rfl⟩)
  refine ⟨{ ext₁ with header := b.header }, ?_⟩
  apply bind_eq_ok.mpr
  refine ⟨(), { ext with headerPmmr := p }, ?_, ?_⟩
  . exact bind_eq_ok.mpr ⟨leafPos n, _, onHeader_eq_ok.mpr ⟨p, hpush, rfl⟩, rfl⟩
  apply bind_eq_ok.mpr
  refine ⟨(), mid, houtputs, ?_⟩
  apply bind_eq_ok.mpr
  refine ⟨(), last, hinputs, ?_⟩
  apply bind_eq_ok.mpr
  exact ⟨(), ext₁, hkernels, rfl⟩

def validateAndApply (env : Env) (b : Block) : Routine Extension ErrorKind Unit := do
  .query fun ext => UTXOView.validateBlock env ext.outputPmmr ext.batch b
  applyBlock env b

theorem validate_and_apply_iff_accepts {b : Block} (hinj : Function.Injective env.blake2b)
    (hsound : Sound env ext) (hindexed : ext.Indexed) (hsorted : b.body.verifySorted env = .ok ())
    (hcut : b.body.verifyCutThrough env = .ok ())
    : ((∃ ext', validateAndApply env b ext = (.ok (), ext')) ↔ Utxo.Accepts ext.unspent b.body)
        ∧
      ∀ ext', validateAndApply env b ext = (.ok (), ext') →
        ext'.unspent = Utxo.apply ext.unspent b.body ∧ ext'.Indexed ∧ Sound env ext' := by
  have h : Represents env ext.unspent ext := ⟨hsound, hindexed, rfl⟩
  have hbody := TransactionBody.sorted_of_verify hsorted hcut
  have hok {ext' : Extension} (hrun : validateAndApply env b ext = (.ok (), ext'))
      : Utxo.Accepts ext.unspent b.body ∧ Represents env (Utxo.apply ext.unspent b.body) ext' := by
    obtain ⟨⟨⟩, ext₁, hvalid, happly⟩ := bind_eq_ok.mp hrun
    rw [query_eq_ok] at hvalid
    rw [← hvalid.2] at happly
    exact h.applyBlock hinj hbody happly
  refine ⟨⟨fun ⟨ext', hrun⟩ => (hok hrun).1, fun haccepts => ?_⟩, fun ext' hrun => ?_⟩
  . obtain ⟨ext', happly⟩ := h.applyBlock_ok hinj hbody haccepts
    exact ⟨ext', bind_eq_ok.mpr ⟨(), ext, query_eq_ok.mpr ⟨h.validateBlock haccepts, rfl⟩, happly⟩⟩
  . have hnext := (hok hrun).2
    exact ⟨hnext.unspent, hnext.indexed, hnext.sound⟩

namespace Sample

def empty : Extension := .new ⟨.new, ChainStore.new.batch⟩ Genesis.genesisMain.header

def commit (n : UInt8) : Commitment := ⟨List.replicate 32 0 ++ [n], rfl⟩

def output (n : UInt8) : Output := ⟨.plain, commit n, .zero⟩

def block (inputs : List Input) (outputs : List Output) : Block :=
  ⟨Genesis.genesisMain.header, inputs, outputs, []⟩

def first : Block := block [] [output 1, output 2]

def second : Block := block [⟨.plain, commit 1⟩] [output 3]

theorem empty_indexed
    : empty.Indexed := by
  intro pos out hdata
  obtain ⟨hmem, -⟩ := (Sound.new (Transparent.env .mainnet) _ _).getData_eq_some.mp hdata
  exact absurd hmem (Finset.notMem_empty _)

theorem runs
    : (validateAndApply (Transparent.env .mainnet) first empty).1 = .ok ()
        ∧ (validateAndApply (Transparent.env .mainnet) second
          (validateAndApply (Transparent.env .mainnet) first empty).2).1 = .ok () := by
  decide

end Sample

-- the second block spends an output of the first one
open Sample in
theorem validate_and_apply_iff_accepts_second
    : ∃ ext₁ ext₂,
        validateAndApply (Transparent.env .mainnet) first empty = (.ok (), ext₁)
          ∧
        validateAndApply (Transparent.env .mainnet) second ext₁ = (.ok (), ext₂)
          ∧
        Utxo.Accepts ext₁.unspent second.body
          ∧
        ext₂.unspent = Utxo.apply (Utxo.apply empty.unspent first.body) second.body := by
  have hinj : Function.Injective (Transparent.env .mainnet).blake2b := fun _ _ h => Hash.mk.inj h
  obtain ⟨hfirst, hsecond⟩ := runs
  have hfirst := Prod.ext hfirst (rfl : _ = (validateAndApply (Transparent.env .mainnet) first empty).2)
  obtain ⟨-, hnext⟩ := validate_and_apply_iff_accepts (b := first) hinj (Sound.new _ _ _) empty_indexed
    (by decide) (by decide)
  obtain ⟨hunspent, hindexed, hsound⟩ := hnext _ hfirst
  have hsecond := Prod.ext hsecond
    (rfl : _ = (validateAndApply (Transparent.env .mainnet) second
      (validateAndApply (Transparent.env .mainnet) first empty).2).2)
  obtain ⟨haccepts, hnext⟩ := validate_and_apply_iff_accepts (b := second) hinj hsound hindexed
    (by decide) (by decide)
  exact ⟨_, _, hfirst, hsecond, haccepts.mp ⟨_, hsecond⟩, hunspent ▸ (hnext _ hsecond).1⟩

end Extension
end Epic
