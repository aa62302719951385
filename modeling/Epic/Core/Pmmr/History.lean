import Epic.Core.Pmmr.Aligned
import Epic.Core.Pmmr.Working
import Epic.Store.Compacted

/-!
This module contains the histories of a prunable Merkle mountain range: pushes, prunes, rewinds, syncs,
discards and compactions. At every point of them the files hold what the prune list says is kept.
-/

namespace Epic
namespace PMMR

open Pmmr DyadicBlock

variable {T E : Type} [PMMRable T E]

structure Stores (p : PMMR E) (s : Finset Nat) (n : Nat) (hash : Nat → Hash) (elmt : Nat → E) : Prop where
  lastPos : p.lastPos = mmrSize n
  backend : p.backend.Stores s n hash elmt

section

variable {p p' : PMMR E} {s : Finset Nat} {n : Nat} {hash : Nat → Hash} {elmt : Nat → E}

theorem Stores.new (prunable : Bool) (hash : Nat → Hash) (elmt : Nat → E)
    : (new prunable).Stores ∅ 0 hash elmt :=
  ⟨rfl, .new, .new, Finset.empty_subset _, .empty, .empty, rfl, rfl⟩

theorem Stores.aligned (h : p.Stores s n hash elmt)
    : p.Aligned n := by
  have hb := h.backend
  have hroots : ∀ root ∈ p.backend.pruneList.bitmap, root ≤ mmrSize n :=
    fun root => hb.prunes.bitmap_le hb.pruned
  refine ⟨h.lastPos, hb.hashTidy, hb.dataTidy, ?_, ?_, hroots, fun pos => hb.prunes.cache_le hb.pruned⟩
  . rw [hb.hashes, List.length_map, PruneList.getTotalShift, PruneList.getShift,
      ← PruneList.cachedShift_of_le hroots]
    exact hb.prunes.length_kept hb.cached hb.pruned
  . rw [hb.data, List.length_map, PruneList.getTotalLeafShift, PruneList.getLeafShift,
      ← PruneList.cachedShift_of_le hroots]
    exact hb.prunes.length_keptLeaves hb.cached hb.pruned

theorem Stores.of_leafSet (h : p.Stores s n hash elmt) (leafSet : LeafSet)
    : Stores { p with backend := { p.backend with leafSet := leafSet } } s n hash elmt :=
  ⟨h.lastPos, h.backend.prunes, h.backend.cached, h.backend.pruned, h.backend.hashTidy,
    h.backend.dataTidy, h.backend.hashes, h.backend.data⟩

theorem Stores.sync (h : p.Stores s n hash elmt)
    : p.sync.Stores s n hash elmt :=
  ⟨h.lastPos, h.backend.prunes, h.backend.cached, h.backend.pruned, .flush _, .flush _,
    h.backend.hashTidy.contents_flush.trans h.backend.hashes,
    h.backend.dataTidy.contents_flush.trans h.backend.data⟩

theorem kept_succ {q : PruneList} (hq : q.Prunes s) (hs : s ⊆ Finset.range n)
    : q.kept (n + 1) = q.kept n ++ List.range' (1 + mmrSize n) (mmrSize (n + 1) - mmrSize n) := by
  have hlt := mmrSize_lt_succ n
  unfold PruneList.kept
  rw [← Nat.add_sub_cancel' hlt.le, ← List.range'_append_1, List.filter_append, Nat.add_sub_cancel_left]
  congr 1
  rw [List.filter_eq_self]
  intro pos hpos
  have hgt := (List.mem_range'_1.mp hpos).1
  rw [Bool.not_eq_true', ← Bool.not_eq_true]
  intro hcompacts
  have := hq.cache_le hs (of_decide_eq_true (Bool.and_eq_true_iff.mp hcompacts).1)
  omega

theorem keptLeaves_succ {q : PruneList} (hq : q.Prunes s) (hs : s ⊆ Finset.range n)
    : q.keptLeaves (n + 1) = q.keptLeaves n ++ [n] := by
  unfold PruneList.keptLeaves
  rw [List.range_succ, List.filter_append]
  congr 1
  rw [List.filter_eq_self]
  intro j hj
  rw [List.mem_singleton] at hj
  rw [hj, Bool.not_eq_true', ← Bool.not_eq_true]
  intro hcompacts
  have := hq.cache_le hs (of_decide_eq_true (Bool.and_eq_true_iff.mp hcompacts).1)
  unfold leafPos at this
  omega

theorem Stores.push {env : Env} {x : T} {pos : Nat} (h : p.Stores s n hash elmt)
    (hpush : PMMR.push env x p = (.ok pos, p'))
    : ∃ hash' elmt', p'.Stores s (n + 1) hash' elmt'
        ∧ (∀ pos ≤ mmrSize n, hash' pos = hash pos)
        ∧ (∀ j < n, elmt' j = elmt j) := by
  obtain ⟨-, happended⟩ := h.aligned.push hpush
  obtain ⟨parents, hhashes⟩ := happended.hashes
  have hb := h.backend
  generalize hnew : hashWithIndex env (PMMRable.write env x) (mmrSize n) :: parents = new at hhashes
  have hlength : new.length = mmrSize (n + 1) - mmrSize n := by
    have hold := h.aligned.hashes
    have hall := happended.aligned.hashes
    rw [hhashes, List.length_append, happended.pruneList] at hall
    omega
  refine ⟨fun pos => if pos ≤ mmrSize n then hash pos else new.getD (pos - mmrSize n - 1) zeroHash,
    fun j => if j < n then elmt j else PMMRable.asElmt env x, ?_, ?_, ?_⟩
  . refine ⟨happended.aligned.lastPos, ?_, ?_, ?_, happended.aligned.hashTidy,
      happended.aligned.dataTidy, ?_, ?_⟩
    . rw [happended.pruneList]
      exact hb.prunes
    . rw [happended.pruneList]
      exact hb.cached
    . exact hb.pruned.trans (Finset.range_mono (Nat.le_succ n))
    . rw [hhashes, happended.pruneList, kept_succ hb.prunes hb.pruned, List.map_append, hb.hashes]
      congr 1
      . apply List.map_congr_left
        intro pos hpos
        rw [if_pos (PruneList.mem_kept.mp hpos).1.2]
      . apply List.ext_getElem
        . rw [List.length_map, List.length_range', hlength]
        . intro i hi hi'
          rw [List.getElem_map, List.getElem_range', if_neg (by omega)]
          rw [show 1 + mmrSize n + 1 * i - mmrSize n - 1 = i by omega, List.getD_eq_getElem _ _ hi]
    . rw [happended.data, happended.pruneList, keptLeaves_succ hb.prunes hb.pruned, List.map_append,
        hb.data, List.map_singleton, if_neg (Nat.lt_irrefl n)]
      congr 1
      apply List.map_congr_left
      intro j hj
      rw [if_pos (PruneList.mem_keptLeaves.mp hj).1]
  . intro pos hpos
    exact if_pos hpos
  . intro j hj
    exact if_pos hj

theorem pruned_of_roots {q : PruneList} (hq : q.Prunes s) (h : ∀ root ∈ q.bitmap, root ≤ mmrSize m)
    : s ⊆ Finset.range m := by
  intro j hj
  obtain ⟨t, htop⟩ := (full_zero.mpr hj).exists_top
  have hroot := h _ ((hq.mem_bitmap _).mpr ⟨_, _, rfl, htop⟩)
  have hle := nodeAt_le_above j 0 t
  rw [nodeAt_zero] at hle
  exact Finset.mem_range.mpr (leafPos_le_mmrSize_iff.mp (hle.trans hroot))

theorem Stores.rewind (h : p.Stores s n hash elmt)
    (hhash : p.backend.hashFile.buffer = []) (hdata : p.backend.dataFile.buffer = [])
    (hposition : lastParent (position + 1) position = mmrSize m) (hm : m ≤ n)
    (hroots : ∀ root ∈ p.backend.pruneList.bitmap, root ≤ mmrSize m) (rewindRmPos : Bitmap)
    : (p.rewind position rewindRmPos).Stores s m hash elmt := by
  have hb := h.backend
  have hs := pruned_of_roots hb.prunes hroots
  have hkept := hb.prunes.length_kept hb.cached hs
  have hleaves := hb.prunes.length_keptLeaves hb.cached hs
  have hhashPlace : mmrSize m - p.backend.pruneList.getShift (mmrSize m)
      = (p.backend.pruneList.kept m).length := by omega
  have hdataPlace : nLeaves (mmrSize m) - p.backend.pruneList.getLeafShift (mmrSize m)
      = (p.backend.pruneList.keptLeaves m).length := by
    rw [nLeaves_mmrSize]
    omega
  have hhashLe : (p.backend.pruneList.kept m).length ≤ p.backend.hashFile.bufferStartPos := by
    rw [hb.hashTidy.start_eq hhash, hb.hashes, List.length_map]
    exact (PruneList.kept_prefix _ hm).length_le
  have hdataLe : (p.backend.pruneList.keptLeaves m).length ≤ p.backend.dataFile.bufferStartPos := by
    rw [hb.dataTidy.start_eq hdata, hb.data, List.length_map]
    exact (PruneList.keptLeaves_prefix _ hm).length_le
  unfold PMMR.rewind PMMRBackend.rewind
  dsimp only
  rw [hposition, hhashPlace, hdataPlace]
  refine ⟨rfl, hb.prunes, hb.cached, hs, hb.hashTidy.rewind hhashLe, hb.dataTidy.rewind hdataLe, ?_, ?_⟩
  . rw [AppendOnlyFile.contents_rewind hhash hhashLe, hb.hashes, ← List.map_take,
      ← List.prefix_iff_eq_take.mp (PruneList.kept_prefix _ hm)]
  . rw [AppendOnlyFile.contents_rewind hdata hdataLe, hb.data, ← List.map_take,
      ← List.prefix_iff_eq_take.mp (PruneList.keptLeaves_prefix _ hm)]

end

-- The bitmaps hold numbers of 32 bits. At these sizes no node, sibling or parent is cut off.
def Narrow (p : PMMR E) : Prop := p.lastPos < 2 ^ 32 - 1

instance (p : PMMR E) : Decidable p.Narrow := Nat.decLt _ _

-- The mountain range as it was last written, and as it is now. A rewind is made while nothing waits to be
-- written, to a size that is not below a pruned subtree. A prune removes a leaf or changes nothing.
inductive Reached (T : Type) {E : Type} [PMMRable T E] (env : Env) : PMMR E → PMMR E → Prop where
  | new : Reached T env (.new true) (.new true)
  | push {base p p' : PMMR E} {x : T} {pos : Nat} (h : Reached T env base p)
    (hpush : PMMR.push env x p = (.ok pos, p')) (hnarrow : p'.Narrow) : Reached T env base p'
  | remove {base p : PMMR E} (pos : Nat) (h : Reached T env base p) (hpos : pos < 2 ^ 32)
    : Reached T env base { p with backend := p.backend.remove pos }
  | rewind {base p : PMMR E} {m position : Nat} (rewindRmPos : Bitmap) (h : Reached T env base p)
    (hhash : p.backend.hashFile.buffer = []) (hdata : p.backend.dataFile.buffer = [])
    (hposition : lastParent (position + 1) position = mmrSize m) (hle : mmrSize m ≤ p.lastPos)
    (hroots : ∀ root ∈ p.backend.pruneList.bitmap, root ≤ mmrSize m)
    : Reached T env base (p.rewind position rewindRmPos)
  | sync {base p : PMMR E} (h : Reached T env base p) : Reached T env p.sync p.sync
  | discard {base p : PMMR E} (h : Reached T env base p) : Reached T env base (discard base p)
  | compact {base p : PMMR E} {cutoffPos : Nat} (rewindRmPos : Bitmap) (h : Reached T env base p)
    (hsettled : p.Settled) (hcutoff : cutoffPos ≤ p.lastPos)
    : Reached T env { p with backend := p.backend.checkCompact cutoffPos rewindRmPos }
        { p with backend := p.backend.checkCompact cutoffPos rewindRmPos }

-- nothing but what waits to be written sets the mountain range apart from the one that was written
structure Working (base p : PMMR E) : Prop where
  settled : base.Settled
  stored : ∃ s n hash elmt, base.Stores s n hash elmt
  stores : ∃ s n hash elmt, p.Stores s n hash elmt
  pending : Pending base p
  inRange : p.InRange
  prunable : p.backend.prunable = true

section

variable {base p p' : PMMR E}

theorem Stores.lt_of_narrow {s : Finset Nat} {n : Nat} {hash : Nat → Hash} {elmt : Nat → E}
    (h : p.Stores s n hash elmt) (hnarrow : p.Narrow)
    : n < 2 ^ 64 := by
  have hle := le_mmrSize n
  unfold Narrow at hnarrow
  rw [h.lastPos] at hnarrow
  omega

theorem Working.refl {s : Finset Nat} {n : Nat} {hash : Nat → Hash} {elmt : Nat → E}
    (h : p.Stores s n hash elmt) (hsettled : p.Settled) (hprunable : p.backend.prunable = true)
    : Working p p where
  settled := hsettled
  stored := ⟨s, n, hash, elmt, h⟩
  stores := ⟨s, n, hash, elmt, h⟩
  pending := PMMRBackend.Pending.refl hsettled
  inRange := ⟨hsettled.hashFile.inRange h.backend.hashTidy, hsettled.dataFile.inRange h.backend.dataTidy⟩
  prunable := hprunable

theorem Working.push {env : Env} {x : T} {pos : Nat} (h : Working base p)
    (hpush : PMMR.push env x p = (.ok pos, p'))
    : Working base p' := by
  obtain ⟨s, n, hash, elmt, hstores⟩ := h.stores
  obtain ⟨hash', elmt', hstores', -⟩ := hstores.push hpush
  obtain ⟨-, happended⟩ := hstores.aligned.push hpush
  have hpending := preserves_push env base x p h.pending
  have hrange := stable_inRange.push env x p h.inRange
  rw [hpush] at hpending hrange
  exact ⟨h.settled, h.stored, ⟨s, n + 1, hash', elmt', hstores'⟩, hpending, hrange,
    happended.prunable.trans h.prunable⟩

theorem Working.remove (h : Working base p) (pos : Nat)
    : Working base { p with backend := p.backend.remove pos } := by
  obtain ⟨s, n, hash, elmt, hstores⟩ := h.stores
  exact ⟨h.settled, h.stored, ⟨s, n, hash, elmt, hstores.of_leafSet _⟩,
    PMMRBackend.Pending.remove h.pending h.prunable pos, ⟨h.inRange.hashFile, h.inRange.dataFile⟩, h.prunable⟩

theorem Working.rewind (h : Working base p) (hhash : p.backend.hashFile.buffer = [])
    (hdata : p.backend.dataFile.buffer = [])
    (hposition : lastParent (position + 1) position = mmrSize m) (hle : mmrSize m ≤ p.lastPos)
    (hroots : ∀ root ∈ p.backend.pruneList.bitmap, root ≤ mmrSize m) (rewindRmPos : Bitmap)
    : Working base (p.rewind position rewindRmPos) := by
  obtain ⟨s, n, hash, elmt, hstores⟩ := h.stores
  rw [hstores.lastPos] at hle
  have hm : m ≤ n := Nat.le_of_not_lt fun hlt => (mmrSize_lt_mmrSize hlt).not_ge hle
  have hrewound := hstores.rewind hhash hdata hposition hm hroots rewindRmPos
  exact ⟨h.settled, h.stored, ⟨s, m, hash, elmt, hrewound⟩, h.pending.rewind h.settled position rewindRmPos,
    ⟨h.inRange.hashFile.rewind hrewound.backend.hashTidy.start,
      h.inRange.dataFile.rewind hrewound.backend.dataTidy.start⟩, h.prunable⟩

theorem Working.sync (h : Working base p)
    : Working p.sync p.sync := by
  obtain ⟨s, n, hash, elmt, hstores⟩ := h.stores
  exact .refl hstores.sync (settled_sync h.settled h.pending) h.prunable

theorem Working.discard_eq (h : Working base p)
    : discard base p = base := by
  obtain ⟨s, n, hash, elmt, hstored⟩ := h.stored
  exact PMMR.discard_eq h.settled hstored.backend.hashTidy hstored.backend.dataTidy h.pending h.inRange

theorem Working.written (h : Working base p)
    : Working base base := by
  obtain ⟨s, n, hash, elmt, hstored⟩ := h.stored
  exact .refl hstored h.settled (h.pending.prunable.symm.trans h.prunable)

theorem Working.compact {cutoffPos : Nat} (h : Working base p) (hsettled : p.Settled)
    (hnarrow : p.Narrow) (hcutoff : cutoffPos ≤ p.lastPos) (rewindRmPos : Bitmap)
    : Working { p with backend := p.backend.checkCompact cutoffPos rewindRmPos }
        { p with backend := p.backend.checkCompact cutoffPos rewindRmPos } := by
  obtain ⟨s, n, hash, elmt, hstores⟩ := h.stores
  have hsize := hstores.lt_of_narrow hnarrow
  rw [hstores.lastPos] at hcutoff
  have hcompacted := hstores.backend.checkCompact hsettled hsize hcutoff rewindRmPos
  exact .refl ⟨hstores.lastPos, hcompacted⟩ (hsettled.checkCompact cutoffPos rewindRmPos) h.prunable

theorem Reached.narrow {env : Env} (h : Reached T env base p)
    : base.Narrow ∧ p.Narrow := by
  induction h with
  | new =>
    have hzero : 0 < 2 ^ 32 - 1 := by decide
    exact ⟨hzero, hzero⟩
  | push h hpush hnarrow ih => exact ⟨ih.1, hnarrow⟩
  | remove pos h hpos ih => exact ih
  | rewind rewindRmPos h hhash hdata hposition hle hroots ih =>
    refine ⟨ih.1, lt_of_le_of_lt ?_ ih.2⟩
    rw [PMMR.rewind, hposition]
    exact hle
  | sync h ih => exact ⟨ih.2, ih.2⟩
  | discard h ih => exact ⟨ih.1, ih.1⟩
  | compact rewindRmPos h hsettled hcutoff ih => exact ⟨ih.2, ih.2⟩

theorem Reached.working [Nonempty E] {env : Env} (h : Reached T env base p)
    : Working base p := by
  induction h with
  | new =>
    obtain ⟨x⟩ := ‹Nonempty E›
    exact .refl (.new true (fun _ => zeroHash) fun _ => x) (.new true) rfl
  | push h hpush hnarrow ih => exact ih.push hpush
  | remove pos h hpos ih => exact ih.remove pos
  | rewind rewindRmPos h hhash hdata hposition hle hroots ih =>
    exact ih.rewind hhash hdata hposition hle hroots rewindRmPos
  | sync h ih => exact ih.sync
  | discard h ih =>
    rw [ih.discard_eq]
    exact ih.written
  | compact rewindRmPos h hsettled hcutoff ih =>
    exact ih.compact hsettled h.narrow.2 hcutoff rewindRmPos

end

end PMMR
end Epic
