import Epic.Core.MerkleProof
import Epic.Core.Pmmr.History

/-!
This module contains the way back: a prunable Merkle mountain range that was written, pushed to and pruned,
and is then rewound to its former size with the leaves that were pruned since.
-/

namespace Epic

-- two backends that answer every question in the same way
structure PMMRBackend.SameAnswers {E : Type} (b c : PMMRBackend E) : Prop where
  unprunedSize : b.unprunedSize = c.unprunedSize
  getHash : ∀ pos, b.getHash pos = c.getHash pos
  getData : ∀ pos, b.getData pos = c.getData pos
  getFromFile : ∀ pos, b.getFromFile pos = c.getFromFile pos
  leafSet : b.leafSet.bitmap = c.leafSet.bitmap

theorem PMMRBackend.SameAnswers.refl (b : PMMRBackend E)
    : SameAnswers b b := ⟨rfl, fun _ => rfl, fun _ => rfl, fun _ => rfl, rfl⟩

namespace PMMR

open Pmmr PMMRBackend

variable {T E : Type} [PMMRable T E]

-- the positions that were removed since, and the mountain range now
inductive Later (T : Type) {E : Type} [PMMRable T E] (env : Env) (start : PMMR E)
    : Bitmap → PMMR E → Prop where
  | start : Later T env start ∅ start
  | push {removed : Bitmap} {p p' : PMMR E} {x : T} {pos : Nat} (h : Later T env start removed p)
    (hpush : PMMR.push env x p = (.ok pos, p')) (hnarrow : p'.Narrow) : Later T env start removed p'
  | remove {removed : Bitmap} {p : PMMR E} (pos : Nat) (h : Later T env start removed p) (hpos : pos < 2 ^ 32)
    : Later T env start (if pos ∈ p.backend.leafSet.bitmap then insert pos removed else removed)
        { p with backend := p.backend.remove pos }
  | sync {removed : Bitmap} {p : PMMR E} (h : Later T env start removed p) : Later T env start removed p.sync

section

variable {env : Env} {base start p : PMMR E} {removed : Bitmap} {n : Nat}

theorem Later.reached (h : Later T env start removed p) (hstart : Reached T env base start)
    : ∃ base', Reached T env base' p := by
  induction h with
  | start => exact ⟨base, hstart⟩
  | push h hpush hnarrow ih =>
    obtain ⟨base', ih⟩ := ih
    exact ⟨base', ih.push hpush hnarrow⟩
  | remove pos h hpos ih =>
    obtain ⟨base', ih⟩ := ih
    exact ⟨base', ih.remove pos hpos⟩
  | @sync removed p h ih =>
    obtain ⟨base', ih⟩ := ih
    exact ⟨p.sync, ih.sync⟩

theorem Later.ahead (h : Later T env start removed p) (hstart : start.Aligned n)
    (hprunable : start.backend.prunable = true)
    : Ahead start p := by
  induction h with
  | start => exact .refl hstart
  | push h hpush hnarrow ih => exact ih.push hstart hpush
  | remove pos h hpos ih => exact ih.remove (ih.prunable.trans hprunable) pos
  | sync h ih => exact ih.sync

theorem Later.unspent_iff (h : Later T env start removed p) (hstart : start.Aligned n)
    (hprunable : start.backend.prunable = true) (hpos : pos ≤ mmrSize n)
    : pos ∈ start.backend.leafSet.bitmap ↔ pos ∈ p.backend.leafSet.bitmap ∨ pos ∈ removed := by
  induction h with
  | start => simp
  | @push removed p p' x leaf h hpush hnarrow ih =>
    have hahead := h.ahead hstart hprunable
    obtain ⟨m, hp⟩ := hahead.aligned
    have hle := hahead.lastPos_le hstart hp
    obtain ⟨-, happended⟩ := hp.push hpush
    have hnew : pos ≠ leafPos m := by
      unfold leafPos
      omega
    rw [ih, happended.leafSet, hahead.prunable, hprunable, if_pos rfl]
    simp [LeafSet.add, hnew]
  | @remove removed p leaf h hlt ih =>
    rw [ih]
    by_cases heq : pos = leaf
    . subst heq
      by_cases hmem : pos ∈ p.backend.leafSet.bitmap <;> simp [PMMRBackend.remove, LeafSet.remove, hmem]
    . by_cases hmem : leaf ∈ p.backend.leafSet.bitmap <;>
        simp [PMMRBackend.remove, LeafSet.remove, hmem, heq]
  | sync h ih => rw [ih, bitmap_sync]

-- the way back to the former size, with the leaves that were removed since
def takeBack (start p : PMMR E) (removed : Bitmap) : PMMRBackend E :=
  p.backend.rewind start.backend.unprunedSize (removed.filter (· ≤ start.backend.unprunedSize))

theorem Aligned.unprunedSize_eq (h : start.Aligned n) (hsettled : start.Settled)
    : start.backend.unprunedSize = mmrSize n := by
  rw [← h.hashes, hsettled.hashFile.contents_eq h.hashTidy]
  rfl

theorem Later.mem_takeBack (h : Later T env start removed p) (hstart : start.Aligned n)
    (hprunable : start.backend.prunable = true) (hsettled : start.Settled) (pos : Nat)
    : pos ∈ (takeBack start p removed).sync.leafSet.bitmap
        ↔
      pos ∈ start.backend.leafSet.bitmap ∧ pos ≤ mmrSize n := by
  have hleafSet : (takeBack start p removed).sync.leafSet.bitmap
      = p.backend.leafSet.rewound (mmrSize n) (removed.filter (· ≤ mmrSize n)) := by
    have hprunable' := (h.ahead hstart hprunable).prunable.trans hprunable
    simp only [takeBack, PMMRBackend.sync, PMMRBackend.rewind, hprunable', ↓reduceIte,
      hstart.unprunedSize_eq hsettled, LeafSet.flush, LeafSet.rewind]
  rw [hleafSet, LeafSet.mem_rewound, Finset.mem_filter]
  constructor
  . rintro (⟨hmem, hle⟩ | ⟨hmem, hle⟩)
    . exact ⟨(h.unspent_iff hstart hprunable hle).mpr (.inl hmem), hle⟩
    . exact ⟨(h.unspent_iff hstart hprunable hle).mpr (.inr hmem), hle⟩
  . rintro ⟨hmem, hle⟩
    rcases (h.unspent_iff hstart hprunable hle).mp hmem with hkept | hremoved
    . exact .inl ⟨hkept, hle⟩
    . exact .inr ⟨hremoved, hle⟩

theorem Later.sync_takeBack (h : Later T env start removed p) (hstart : start.Aligned n)
    (hprunable : start.backend.prunable = true) (hsettled : start.Settled) (hsettled' : p.Settled)
    (hunspent : ∀ pos ∈ start.backend.leafSet.bitmap, pos ≤ mmrSize n)
    : (takeBack start p removed).sync = start.backend := by
  have hahead := h.ahead hstart hprunable
  obtain ⟨hflushHash, hflushData, -⟩ := hahead.flush_rewind hstart hsettled hsettled'.hashFile.buffer
    hsettled'.dataFile.buffer (lastParent_mmrSize n) (removed.filter (· ≤ mmrSize n))
  have hbitmap : (takeBack start p removed).sync.leafSet.bitmap = start.backend.leafSet.bitmap := by
    ext pos
    rw [h.mem_takeBack hstart hprunable hsettled pos]
    exact ⟨And.left, fun hmem => ⟨hmem, hunspent pos hmem⟩⟩
  unfold PMMR.rewind at hflushHash hflushData
  rw [lastParent_mmrSize, ← hstart.unprunedSize_eq hsettled] at hflushHash hflushData
  have hleafSet : (takeBack start p removed).sync.leafSet = start.backend.leafSet := by
    have hflushed : (takeBack start p removed).sync.leafSet.bitmapBak
        = (takeBack start p removed).sync.leafSet.bitmap := by
      simp [takeBack, PMMRBackend.sync, PMMRBackend.rewind, hahead.prunable, hprunable, LeafSet.flush]
    rw [← LeafSet.flush_eq hflushed, ← LeafSet.flush_eq hsettled.leafSet]
    unfold LeafSet.flush
    rw [hbitmap]
  calc (takeBack start p removed).sync
    _ = ⟨p.backend.prunable, (takeBack start p removed).hashFile.flush,
          (takeBack start p removed).dataFile.flush, (takeBack start p removed).sync.leafSet,
          p.backend.pruneList⟩ := rfl
    _ = start.backend := by
      unfold takeBack at hleafSet ⊢
      rw [hflushHash, hflushData, hleafSet, hahead.prunable, hahead.pruneList]

theorem Later.discard_takeBack [Nonempty E] (h : Later T env start removed p)
    (hreached : Reached T env base start) (hsettled : start.Settled) (hsettled' : p.Settled)
    : (takeBack start p removed).discard = p.backend := by
  obtain ⟨base', hreached'⟩ := h.reached hreached
  have hworking := hreached.working
  have hworking' := hreached'.working
  obtain ⟨s, n, hash, elmt, hstores⟩ := hworking.stores
  obtain ⟨s', m, hash', elmt', hstores'⟩ := hworking'.stores
  have hahead := h.ahead hstores.aligned hworking.prunable
  have hroots : ∀ root ∈ p.backend.pruneList.bitmap, root ≤ mmrSize n := by
    rw [hahead.pruneList]
    exact hstores.aligned.pruned
  have hle : mmrSize n ≤ p.lastPos := by
    rw [hstores'.lastPos]
    exact hahead.lastPos_le hstores.aligned hstores'.aligned
  have hrewound := (Working.refl hstores' hsettled' hworking'.prunable).rewind hsettled'.hashFile.buffer
    hsettled'.dataFile.buffer (lastParent_mmrSize n) hle hroots (removed.filter (· ≤ mmrSize n))
  have hdiscard := congrArg PMMR.backend hrewound.discard_eq
  unfold PMMR.discard PMMR.rewind at hdiscard
  rw [lastParent_mmrSize, ← hstores.aligned.unprunedSize_eq hsettled] at hdiscard
  exact hdiscard

theorem Later.rewind_restores_iff [Nonempty E] (hreached : Reached T env base start) (hsettled : start.Settled)
    (h : Later T env start removed p) (hsettled' : p.Settled)
    : (SameAnswers (takeBack start p removed).sync start.backend
        ↔
      ∀ pos ∈ start.backend.leafSet.bitmap, pos ≤ start.backend.unprunedSize)
        ∧
      SameAnswers (takeBack start p removed).discard p.backend := by
  have hworking := hreached.working
  obtain ⟨s, n, hash, elmt, hstores⟩ := hworking.stores
  rw [h.discard_takeBack hreached hsettled hsettled', hstores.aligned.unprunedSize_eq hsettled]
  refine ⟨⟨?_, ?_⟩, .refl _⟩
  . intro hsame pos hpos
    rw [← hsame.leafSet, h.mem_takeBack hstores.aligned hworking.prunable hsettled] at hpos
    exact hpos.2
  . intro hunspent
    rw [h.sync_takeBack hstores.aligned hworking.prunable hsettled hsettled' hunspent]
    exact .refl _

end

/-!
A rewind that restores a leaf behind its position leaves it in the leaf set.
-/

namespace Sample

instance : Nonempty TxKernel := ⟨kernel 0⟩

def pushed (p : PMMR TxKernel) (fee : UInt64) : PMMR TxKernel := (PMMR.push env (kernel fee) p).2

def written₂ : PMMR TxKernel := (pushed (pushed (.new true) 1) 2).sync

def spent₂ : PMMR TxKernel := PMMR.sync { written₂ with backend := written₂.backend.remove 2 }

-- the second leaf is taken out of the files and put back into the leaf set
def rewound₁ : PMMR TxKernel := (spent₂.rewind 1 {2}).sync

theorem reached_written₂
    : Reached TxKernel env written₂ written₂ := by
  have hpush₁ : PMMR.push env (kernel 1) (.new true) = (.ok 1, pushed (.new true) 1) := by decide
  have hpush₂ : PMMR.push env (kernel 2) (pushed (.new true) 1) = (.ok 2, pushed (pushed (.new true) 1) 2) := by
    decide
  have hnarrow₁ : (pushed (.new true) 1).Narrow := by decide
  have hnarrow₂ : (pushed (pushed (.new true) 1) 2).Narrow := by decide
  exact ((Reached.new.push hpush₁ hnarrow₁).push hpush₂ hnarrow₂).sync

theorem reached_rewound₁
    : Reached TxKernel env rewound₁ rewound₁ := by
  apply Reached.sync
  apply Reached.rewind (m := 1) {2} (reached_written₂.remove 2 (by decide)).sync
  . rfl
  . rfl
  . decide
  . decide
  . decide

end Sample

open Sample in
theorem rewind_keeps_leaf_behind
    : Reached TxKernel env rewound₁ rewound₁
        ∧
      rewound₁.Settled
        ∧
      Later TxKernel env rewound₁ ∅ rewound₁
        ∧
      rewound₁.backend.unprunedSize = 1
        ∧
      rewound₁.backend.leafSet.bitmap = {1, 2}
        ∧
      (takeBack rewound₁ rewound₁ ∅).sync.leafSet.bitmap = {1}
        ∧
      ¬SameAnswers (takeBack rewound₁ rewound₁ ∅).sync rewound₁.backend := by
  refine ⟨reached_rewound₁, reached_rewound₁.working.settled, .start, ?_, ?_, ?_, ?_⟩
  . decide
  . decide
  . decide
  . intro hsame
    exact absurd hsame.leafSet (by decide)

namespace Sample

-- a third leaf is pushed and the first one is spent
def written₃ : PMMR TxKernel :=
  PMMR.sync { pushed written₂ 3 with backend := (pushed written₂ 3).backend.remove 1 }

theorem push_written₂
    : PMMR.push env (kernel 3) written₂ = (.ok 4, pushed written₂ 3) := by
  decide

theorem narrow_pushed_written₂
    : (pushed written₂ 3).Narrow := by
  decide

theorem reached_written₃
    : Reached TxKernel env written₃ written₃ :=
  ((reached_written₂.push push_written₂ narrow_pushed_written₂).remove 1 (by decide)).sync

theorem later_written₃
    : Later TxKernel env written₂ {1} written₃ :=
  ((Later.start.push push_written₂ narrow_pushed_written₂).remove 1 (by decide)).sync

end Sample

open Sample in
theorem Later.rewind_restores_written₂
    : (∀ pos ∈ written₂.backend.leafSet.bitmap, pos ≤ written₂.backend.unprunedSize)
        ∧
      SameAnswers (takeBack written₂ written₃ {1}).sync written₂.backend
        ∧
      SameAnswers (takeBack written₂ written₃ {1}).discard written₃.backend := by
  have hunspent : ∀ pos ∈ written₂.backend.leafSet.bitmap, pos ≤ written₂.backend.unprunedSize := by
    decide
  obtain ⟨hiff, hdiscard⟩ := Later.rewind_restores_iff reached_written₂ reached_written₂.working.settled
    later_written₃ reached_written₃.working.settled
  exact ⟨hunspent, hiff.mpr hunspent, hdiscard⟩

end PMMR
end Epic
